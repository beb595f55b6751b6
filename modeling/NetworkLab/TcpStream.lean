import NetworkLab.GuardedRuns
import NetworkLab.TcpFrame

/-!
# Integrity of the received byte stream

A peer sends a stream in segments; the network delivers its packets to an
established socket in any order, with losses and duplicates. Every packet without
PSH sets `rcv_nxt` to its own end, so the stream is received in order as long as
such packets end where the data received so far ends, or after the FIN.
-/
namespace NetworkLab.Tcp
open GuardedRuns Outcomes

/-- The bytes that went into the ring buffer. -/
def written (actions : List Action) : List UInt8 :=
  (actions.map fun a => match a with
    | .writeRingBuffer data => data
    | _ => []).flatten

@[simp] theorem written_append (as bs : List Action) :
    written (as ++ bs) = written as ++ written bs := by
  simp [written]

section Quiet

/-- The second state differs from the first in nothing that receiving data is about. -/
structure Quiet (run run' : Run) : Prop where
  rcvNxt : run'.tsk.rcvNxt = run.tsk.rcvNxt
  rcvOfoBuf : run'.tsk.rcvOfoBuf = run.tsk.rcvOfoBuf
  written_eq : written run'.actions = written run.actions

theorem Quiet.refl (run : Run) : Quiet run run := ⟨rfl, rfl, rfl⟩

theorem Quiet.trans {r₁ r₂ r₃ : Run} (h₁ : Quiet r₁ r₂) (h₂ : Quiet r₂ r₃) : Quiet r₁ r₃ :=
  ⟨h₂.rcvNxt.trans h₁.rcvNxt, h₂.rcvOfoBuf.trans h₁.rcvOfoBuf, h₂.written_eq.trans h₁.written_eq⟩

theorem Quiet.act {run run' : Run} (h : Quiet run run') {a : Action} (ha : written [a] = []) :
    Quiet run (run'.act a) :=
  ⟨h.rcvNxt, h.rcvOfoBuf, by simp [Run.act, ha, h.written_eq]⟩

theorem quiet_tcpSendControlPacket (run : Run) (flags : UInt8) :
    Quiet run (tcpSendControlPacket run flags) := by
  unfold tcpSendControlPacket afterControl putSendbuf
  split_ifs
  · exact ⟨rfl, rfl, by simp [Run.act, written]⟩
  · exact ⟨rfl, rfl, by simp [Run.act, written]⟩

theorem keptByAck_quiet (run : Run) : KeptByAck (Quiet run) where
  act run' a ha h := by
    apply h.act
    cases a with
    | writeRingBuffer data => cases ha
    | _ => rfl
  update run' f hf h := by
    obtain ⟨_, _, _, _, _, _, _, _, _, _, _, hf⟩ := hf
    refine ⟨?_, ?_, h.written_eq⟩
    · rw [Run.update_tsk, hf]
      exact h.rcvNxt
    · rw [Run.update_tsk, hf]
      exact h.rcvOfoBuf

theorem quiet_processAck (run : Run) (cb : TcpCb) : Quiet run (processAck run cb) :=
  (keptByAck_quiet run).processAck cb (.refl run)

theorem quiet_wakeIf (run : Run) (asleep : Bool) (wait : WaitName) :
    Quiet run (run.wakeIf asleep wait) := by
  unfold Run.wakeIf
  split_ifs
  · exact (Quiet.refl run).act rfl
  · exact .refl run

theorem quiet_finishData (run : Run) : Quiet run (finishData run) :=
  ((quiet_wakeIf run _ .read).trans (quiet_tcpSendControlPacket _ tcpAck)).trans
    (quiet_wakeIf _ _ .send)

theorem quiet_setState (run : Run) (state : TcpState) : Quiet run (run.setState state) :=
  ⟨rfl, rfl, rfl⟩

theorem quiet_processPureAck (run : Run) : Quiet run (processPureAck run) := by
  unfold processPureAck
  split
  · exact (((Quiet.refl run).act rfl).act rfl).trans (quiet_setState _ _)
  · split_ifs
    · exact (Quiet.refl run).act rfl
    · exact .refl run
  · exact quiet_setState run _
  · simp only
    split_ifs
    · exact (quiet_setState run _).act rfl
    · exact ((quiet_setState run _).act rfl).act rfl
  · exact .refl run

/-- Every case but that of data leaves the receive side alone. -/
theorem quiet_processFlags (run : Run) (newIss : UInt32) {cb : TcpCb}
    (hpsh : cb.flags ≠ tcpPsh ∧ cb.flags ≠ tcpPsh ||| tcpAck) :
    ∃ run', processFlags run cb newIss = .ok run' ∧ Quiet run run' := by
  unfold processFlags
  split_ifs with h₁ h₂ h₃ h₄ h₅ h₆
  · refine ⟨_, rfl, ?_⟩
    unfold processSyn
    split
    · exact ((Quiet.refl run).act rfl).act rfl
    · exact .refl run
  · refine ⟨_, rfl, ?_⟩
    unfold processSynAck
    split_ifs
    · exact (Quiet.refl run).act rfl
    · exact .refl run
  · exact ⟨_, rfl, quiet_processPureAck run⟩
  · exact absurd h₄ (by simp [hpsh.1, hpsh.2])
  · refine ⟨_, rfl, ?_⟩
    unfold processAckFin
    split_ifs
    · exact ((quiet_setState run _).trans (quiet_tcpSendControlPacket _ _)).act rfl
    · exact .refl run
  · refine ⟨_, rfl, ?_⟩
    unfold processFin
    split
    · exact ((quiet_setState run _).trans (quiet_tcpSendControlPacket _ _)).act rfl
    · exact ((quiet_setState run _).trans (quiet_tcpSendControlPacket _ _)).act rfl
    · exact .refl run
  · exact ⟨_, rfl, .refl run⟩

end Quiet

/-- What a peer sends: the payloads of its segments in order. The sequence numbers
from the SYN to the one after the FIN do not wrap. -/
structure Stream where
  isn : UInt32
  segs : List (List UInt8)
  mss_bound : ∀ seg ∈ segs, seg.length ≤ mss
  no_wrap : isn.toNat + segs.flatten.length + 2 < 2 ^ 32

/-- The packets of the peer. A pure ACK carries the sequence number that was next
when it was sent. -/
inductive Sent (n : ℕ)
  | syn (withAck : Bool)
  | data (i : Fin n)
  | ack (i : Fin (n + 1))
  | ackAfterFin
  | fin (withAck : Bool)
  deriving DecidableEq

namespace Stream

variable (st : Stream)

/-- Bytes before segment `i`. -/
def bound (i : ℕ) : ℕ := (st.segs.take i).flatten.length

/-- Sequence number of the byte at position `n`. -/
def pos (n : ℕ) : UInt32 := st.isn + 1 + UInt32.ofNat n

def total : ℕ := st.segs.flatten.length

def seq : Sent st.segs.length → UInt32
  | .syn _ => st.isn
  | .data i => st.pos (st.bound i)
  | .ack i => st.pos (st.bound i)
  | .ackAfterFin => st.pos (st.total + 1)
  | .fin _ => st.pos st.total

def flags : Sent st.segs.length → UInt8
  | .syn withAck => if withAck then tcpSyn ||| tcpAck else tcpSyn
  | .data _ => tcpPsh
  | .ack _ => tcpAck
  | .ackAfterFin => tcpAck
  | .fin withAck => if withAck then tcpAck ||| tcpFin else tcpFin

def payload : Sent st.segs.length → List UInt8
  | .data i => st.segs[i]
  | _ => []

/-- The control block of a packet; the remaining header fields are those of `ip` and `tcp`. -/
def cb (p : Sent st.segs.length) (ip : IpHdr) (tcp : TcpHdr) : TcpCb :=
  tcpCbInit { ip with ihl := 5, totLen := UInt16.ofNat (40 + (st.payload p).length) }
    { tcp with off := 5, seq := st.seq p, flags := st.flags p } (st.payload p)

theorem length_payload (p : Sent st.segs.length) : (st.payload p).length ≤ mss := by
  cases p with
  | data i => exact st.mss_bound _ (List.getElem_mem i.isLt)
  | syn | ack | ackAfterFin | fin => exact Nat.zero_le _

@[simp] theorem cb_seq (p : Sent st.segs.length) (ip : IpHdr) (tcp : TcpHdr) :
    (st.cb p ip tcp).seq = st.seq p := rfl

@[simp] theorem cb_flags (p : Sent st.segs.length) (ip : IpHdr) (tcp : TcpHdr) :
    (st.cb p ip tcp).flags = st.flags p := rfl

@[simp] theorem cb_payload (p : Sent st.segs.length) (ip : IpHdr) (tcp : TcpHdr) :
    (st.cb p ip tcp).payload = st.payload p := by
  simp only [cb, tcpCbInit]
  exact List.drop_left' rfl

theorem toNat_totLen (p : Sent st.segs.length) :
    (UInt16.ofNat (40 + (st.payload p).length)).toNat = 40 + (st.payload p).length := by
  have hlen := st.length_payload p
  simp only [mss] at hlen
  rw [UInt16.toNat_ofNat']
  omega

@[simp] theorem cb_plLen (p : Sent st.segs.length) (ip : IpHdr) (tcp : TcpHdr) :
    (st.cb p ip tcp).plLen = (st.payload p).length := by
  have htot := st.toNat_totLen p
  simp only [cb, tcpCbInit, htot, ipHdrSize]
  have h20 : (4 * (5 : UInt8).toUInt16).toNat = 20 := by decide
  have h5 : (5 : UInt8).toNat = 5 := by decide
  rw [h20, h5]
  push_cast
  omega

theorem cb_seqEnd (p : Sent st.segs.length) (ip : IpHdr) (tcp : TcpHdr) :
    (st.cb p ip tcp).seqEnd = st.seq p + UInt32.ofNat (st.payload p).length +
      if st.flags p &&& (tcpSyn ||| tcpFin) ≠ 0 then 1 else 0 := by
  have htot := st.toNat_totLen p
  have hlen := st.length_payload p
  simp only [mss] at hlen
  have hword : (UInt16.ofNat (40 + (st.payload p).length)).toUInt32 =
      UInt32.ofNat (st.payload p).length + 40 := by
    apply UInt32.toNat_inj.mp
    rw [UInt16.toNat_toUInt32, htot, UInt32.toNat_add, UInt32.toNat_ofNat']
    have h40 : (40 : UInt32).toNat = 40 := by decide
    omega
  have hip : (4 * (5 : UInt8).toUInt16).toUInt32 = 20 := by decide
  have htcp : 4 * (5 : UInt8).toUInt32 = 20 := by decide
  have hsub : (UInt16.ofNat (40 + (st.payload p).length)).toUInt32 -
      (4 * (5 : UInt8).toUInt16).toUInt32 - 4 * (5 : UInt8).toUInt32 =
      UInt32.ofNat (st.payload p).length := by
    rw [hword, hip, htcp]
    grind
  simp only [cb, tcpCbInit, tcpSeqEnd, ipHdrSize, hsub]

section Positions

theorem bound_le_total (i : ℕ) : st.bound i ≤ st.total := by
  have h : (st.segs.take i).flatten.length + (st.segs.drop i).flatten.length = st.total := by
    rw [← List.length_append, ← List.flatten_append, List.take_append_drop]
    rfl
  simp only [bound]
  omega

theorem take_succ_flatten (i : Fin st.segs.length) :
    (st.segs.take (i + 1)).flatten = (st.segs.take i).flatten ++ st.segs[i] := by
  rw [List.take_add_one, List.getElem?_eq_getElem i.isLt, Option.toList_some,
    List.flatten_append, List.flatten_singleton]
  rfl

theorem bound_succ (i : Fin st.segs.length) :
    st.bound (i + 1) = st.bound i + st.segs[i].length := by
  have h := st.take_succ_flatten i
  simp only [bound, h, List.length_append]

theorem bound_mono {i j : ℕ} (h : i ≤ j) : st.bound i ≤ st.bound j := by
  have hle : st.segs.take i <+: st.segs.take j := List.take_prefix_take_left h
  obtain ⟨rest, hrest⟩ := hle
  simp only [bound, ← hrest, List.flatten_append, List.length_append]
  omega

theorem lt_of_bound_lt {i j : ℕ} (h : st.bound i < st.bound j) : i < j := by
  by_contra hge
  have := st.bound_mono (Nat.le_of_not_lt hge)
  omega

theorem take_bound (i : ℕ) : st.segs.flatten.take (st.bound i) = (st.segs.take i).flatten := by
  have h : st.segs.flatten = (st.segs.take i).flatten ++ (st.segs.drop i).flatten := by
    rw [← List.flatten_append, List.take_append_drop]
  rw [h]
  exact List.take_left' rfl

/-- A segment continues the stream where it begins. -/
theorem take_bound_succ (i : Fin st.segs.length) :
    st.segs.flatten.take (st.bound (i + 1)) = st.segs.flatten.take (st.bound i) ++ st.segs[i] := by
  rw [take_bound, take_bound, take_succ_flatten]

theorem toNat_pos {n : ℕ} (h : n ≤ st.total + 1) : (st.pos n).toNat = st.isn.toNat + 1 + n := by
  have hwrap := st.no_wrap
  simp only [total] at h
  have hone : (1 : UInt32).toNat = 1 := by decide
  simp only [pos, UInt32.toNat_add, UInt32.toNat_ofNat', hone]
  omega

theorem pos_lt_pos {m n : ℕ} (hm : m ≤ st.total + 1) (hn : n ≤ st.total + 1) :
    st.pos m < st.pos n ↔ m < n := by
  rw [UInt32.lt_iff_toNat_lt, st.toNat_pos hm, st.toNat_pos hn]
  omega

theorem pos_eq_pos {m n : ℕ} (hm : m ≤ st.total + 1) (hn : n ≤ st.total + 1) :
    st.pos m = st.pos n ↔ m = n := by
  rw [← UInt32.toNat_inj, st.toNat_pos hm, st.toNat_pos hn]
  omega

theorem pos_add (m n : ℕ) : st.pos m + UInt32.ofNat n = st.pos (m + n) := by
  simp only [pos, UInt32.ofNat_add]
  grind

end Positions

end Stream

section Store

/-- Storing data adds it to the bytes written and changes no sequence number; a call
that stops has written nothing more and has touched no freed memory. -/
def Stored (run : Run) (data : List UInt8) (run' : Run) : Prop :=
  run'.tsk.rcvNxt = run.tsk.rcvNxt ∧ run'.tsk.rcvOfoBuf = run.tsk.rcvOfoBuf ∧
    written run'.actions = written run.actions ++ data

theorem waitSpace_ends (n : ℤ) (tsk : TcpSock) (actions : List Action) (reads : List ℕ) :
    Ends (waitSpace n tsk actions reads)
      (fun run => run.tsk.rcvNxt = tsk.rcvNxt ∧ run.tsk.rcvOfoBuf = tsk.rcvOfoBuf ∧
        written run.actions = written actions)
      (fun e => e.1 = .blocked ∧ written e.2.actions = written actions) := by
  induction reads generalizing tsk actions with
  | nil =>
    simp only [waitSpace]
    split_ifs
    · exact ⟨rfl, by simp [written]⟩
    · exact ⟨rfl, rfl, rfl⟩
  | cons len reads ih =>
    simp only [waitSpace]
    split_ifs
    · have h := ih (tsk.read len) (actions ++ [.wakeUp .read])
      have hnone : written (actions ++ [.wakeUp .read]) = written actions := by
        simp [written]
      rw [hnone] at h
      exact h
    · exact ⟨rfl, rfl, rfl⟩

theorem storeData_ends (run : Run) (data : List UInt8) :
    Ends (storeData run data data.length) (Stored run data)
      (fun e => e.1 ≠ .undefined ∧ written e.2.actions = written run.actions) := by
  unfold storeData
  have hwait := waitSpace_ends data.length run.tsk run.actions run.reads
  cases hr : waitSpace data.length run.tsk run.actions run.reads with
  | error e =>
    rw [hr, ends_error] at hwait
    exact ⟨by rw [hwait.1]; decide, hwait.2⟩
  | ok run' =>
    rw [hr, ends_ok] at hwait
    obtain ⟨hnxt, hofo, hwritten⟩ := hwait
    change Ends (writeRingBuffer run' data data.length) _ _
    unfold writeRingBuffer
    split_ifs
    · refine ⟨hnxt, hofo, ?_⟩
      have hdata : written [.writeRingBuffer (data.take (data.length : ℤ).toNat)] = data := by
        simp [written]
      simp only [Run.act_actions, Run.update_actions, written_append, hwritten, hdata]
    · exact ⟨Stop.noConfusion, hwritten⟩

end Store

section Drain

variable {st : Stream}

def Stream.ofo (st : Stream) (j : Fin st.segs.length) : OfoBuffer :=
  ⟨st.pos (st.bound j), st.pos (st.bound (j + 1)), st.segs[j], st.segs[j].length⟩

/-- The entries are segments that begin at `n` or later, in the order of the stream. -/
structure Waiting (st : Stream) (n : ℕ) (entries : List OfoBuffer) : Prop where
  sorted : entries.Pairwise fun a b => a.seq < b.seq
  segment : ∀ buf ∈ entries, ∃ j : Fin st.segs.length, n ≤ st.bound j ∧ buf = st.ofo j

/-- The first `n` bytes of the stream have been written, those in `base` by earlier calls. -/
structure Reached (st : Stream) (base : List UInt8) (n : ℕ) (run : Run) : Prop where
  le_total : n ≤ st.total
  bytes : base ++ written run.actions = st.segs.flatten.take n

/-- How a call that stops leaves the stream. -/
def Partial (st : Stream) (base : List UInt8) (e : Stop × Run) : Prop :=
  e.1 ≠ .undefined ∧ ∃ n, Reached st base n e.2

theorem Reached.of_written {base : List UInt8} {n : ℕ} {run run' : Run}
    (h : Reached st base n run) (hw : written run'.actions = written run.actions) :
    Reached st base n run' := ⟨h.le_total, by rw [hw, h.bytes]⟩

theorem Reached.prefix_bytes {base : List UInt8} {n : ℕ} {run : Run}
    (h : Reached st base n run) : base ++ written run.actions <+: st.segs.flatten := by
  rw [h.bytes]
  exact List.take_prefix n _

theorem Reached.store {base : List UInt8} {run run' : Run} {j : Fin st.segs.length}
    (h : Reached st base (st.bound j) run) (hs : Stored run st.segs[j] run') :
    Reached st base (st.bound (j + 1)) run' := by
  refine ⟨st.bound_le_total _, ?_⟩
  rw [hs.2.2, ← List.append_assoc, h.bytes, st.take_bound_succ]

/-- Storing a segment where the stream has got to. -/
theorem Reached.storeData_ends {base : List UInt8} {run : Run} {j : Fin st.segs.length}
    (h : Reached st base (st.bound j) run) :
    Ends (storeData run st.segs[j] st.segs[j].length) (Stored run st.segs[j])
      (Partial st base) := by
  have hstore := Tcp.storeData_ends run st.segs[j]
  cases hr : storeData run st.segs[j] st.segs[j].length with
  | ok run' =>
    rw [hr] at hstore
    exact hstore
  | error e =>
    rw [hr] at hstore
    exact ⟨hstore.1, _, h.of_written hstore.2⟩

theorem Waiting.cons_bound {n : ℕ} {j : Fin st.segs.length} {rest : List OfoBuffer}
    (h : Waiting st n (st.ofo j :: rest)) : Waiting st (st.bound (j + 1)) rest := by
  obtain ⟨hfirst, hsorted⟩ := List.pairwise_cons.mp h.sorted
  refine ⟨hsorted, fun buf hbuf => ?_⟩
  obtain ⟨k, -, rfl⟩ := h.segment buf (List.mem_cons_of_mem _ hbuf)
  have hlt : st.bound j < st.bound k := by
    have hpos := hfirst _ hbuf
    have hj := st.bound_le_total j
    have hk := st.bound_le_total k
    exact (st.pos_lt_pos (by omega) (by omega)).mp hpos
  exact ⟨k, st.bound_mono (st.lt_of_bound_lt hlt), rfl⟩

theorem Waiting.later {n m : ℕ} {j : Fin st.segs.length} {rest : List OfoBuffer}
    (h : Waiting st n (st.ofo j :: rest)) (hm : m ≤ st.bound j) :
    Waiting st m (st.ofo j :: rest) := by
  refine ⟨h.sorted, fun buf hbuf => ?_⟩
  rcases List.mem_cons.mp hbuf with rfl | hrest
  · exact ⟨j, hm, rfl⟩
  · obtain ⟨k, hk, rfl⟩ := h.cons_bound.segment _ hrest
    have hmono := st.bound_mono (Nat.le_add_right j 1)
    exact ⟨k, by omega, rfl⟩

/-- The loop writes the entries that continue the stream; the others begin later. -/
theorem drainOfo_ends {base : List UInt8} (entries : List OfoBuffer) {n : ℕ} {run : Run}
    (hreach : Reached st base n run) (hwait : Waiting st n entries)
    (hlist : run.tsk.rcvOfoBuf = ⟨entries, [], false⟩) :
    Ends (drainOfo entries (st.pos n) run)
      (fun r => ∃ m rest, r.1 = st.pos m ∧ Reached st base m r.2 ∧
        Waiting st (m + 1) rest ∧ r.2.tsk.rcvOfoBuf = ⟨rest, [], false⟩)
      (Partial st base) := by
  induction entries generalizing n run with
  | nil => exact ⟨n, [], rfl, hreach, ⟨.nil, by simp⟩, hlist⟩
  | cons buf rest ih =>
    obtain ⟨j, hj, rfl⟩ := hwait.segment buf List.mem_cons_self
    have hn := hreach.le_total
    have hbj := st.bound_le_total j
    simp only [drainOfo]
    split_ifs with hlt
    · have hbefore : n < st.bound j := (st.pos_lt_pos (by omega) (by omega)).mp hlt
      exact ⟨n, _, rfl, hreach, hwait.later (by omega), hlist⟩
    · have hat : n = st.bound j := by
        have := (st.pos_lt_pos (m := n) (n := st.bound j) (by omega) (by omega)).not.mp hlt
        omega
      subst hat
      apply (hreach.storeData_ends (j := j)).bind
      intro run' hs
      refine ih (hreach.store hs |>.of_written rfl) hwait.cons_bound ?_
      simp only [Run.update_tsk, hs.2.1, hlist, OfoList.deleteFirst, List.isEmpty_nil,
        Bool.not_true, Bool.or_false]

end Drain

section Insert

variable {st : Stream}

theorem sorted_insertOfo {buf : OfoBuffer} {entries : List OfoBuffer}
    (h : entries.Pairwise fun a b => a.seq < b.seq) :
    (insertOfo buf entries).Pairwise fun a b => a.seq < b.seq := by
  induction entries with
  | nil => simp [insertOfo]
  | cons pos rest ih =>
    obtain ⟨hfirst, hrest⟩ := List.pairwise_cons.mp h
    simp only [insertOfo]
    split_ifs with hgt heq
    · refine List.pairwise_cons.mpr ⟨fun b hb => ?_, ih hrest⟩
      rcases mem_insertOfo hb with rfl | hmem
      · exact hgt
      · exact hfirst b hmem
    · exact h
    · have hlt : buf.seq < pos.seq := by grind
      refine List.pairwise_cons.mpr ⟨fun b hb => ?_, h⟩
      rcases List.mem_cons.mp hb with rfl | hmem
      · exact hlt
      · exact UInt32.lt_trans hlt (hfirst b hmem)

/-- A segment that does not begin before the first entry takes its place in the list. -/
theorem Waiting.insert {n : ℕ} {entries : List OfoBuffer} {j : Fin st.segs.length}
    (h : Waiting st n entries) (hj : n ≤ st.bound j)
    (hfirst : ∀ first ∈ entries.head?, first.seq ≤ st.pos (st.bound j)) :
    ∃ entries', (OfoList.mk entries [] false).insert (st.ofo j) = ⟨entries', [], false⟩ ∧
      Waiting st n entries' := by
  have hinsert : Waiting st n (insertOfo (st.ofo j) entries) := by
    refine ⟨sorted_insertOfo h.sorted, fun buf hbuf => ?_⟩
    rcases mem_insertOfo hbuf with rfl | hmem
    · exact ⟨j, hj, rfl⟩
    · exact h.segment buf hmem
  cases entries with
  | nil => exact ⟨_, rfl, hinsert⟩
  | cons pos rest =>
    have hle : pos.seq ≤ (st.ofo j).seq := hfirst pos rfl
    simp only [OfoList.insert]
    simp only [insertOfo] at hinsert
    split_ifs at hinsert ⊢ with hgt heq
    · exact ⟨_, rfl, hinsert⟩
    · exact ⟨_, rfl, h⟩
    · exact absurd hle (by grind)

end Insert

section Connection

variable (st : Stream)

/-- A socket, the bytes written to its ring buffer, and why it stopped, if it has. -/
structure Conn where
  tsk : TcpSock
  received : List UInt8
  halted : Option Stop

def Conn.after (c : Conn) : Result → Conn
  | .ok run => ⟨run.tsk, c.received ++ written run.actions, none⟩
  | .error (stop, run) => ⟨run.tsk, c.received ++ written run.actions, some stop⟩

/-- A packet of the peer arrives, with the fields that it has of `ip` and `tcp`, or the
application or a timer changes the socket. -/
inductive Event
  | deliver (p : Sent st.segs.length) (ip : IpHdr) (tcp : TcpHdr) (newIss : UInt32)
      (reads : List ℕ)
  | change (tsk : TcpSock)

/-- Only `tcp_process` changes `rcv_nxt` and `rcv_ofo_buf` of an established socket. -/
def step (c : Conn) : Event st → Option Conn
  | .deliver p ip tcp newIss reads =>
    if c.halted = none then some (c.after (tcpProcess c.tsk (st.cb p ip tcp) newIss reads))
    else none
  | .change tsk =>
    if c.halted = none ∧ tsk.rcvNxt = c.tsk.rcvNxt ∧ tsk.rcvOfoBuf = c.tsk.rcvOfoBuf then
      some { c with tsk := tsk }
    else none

/-- An established connection that has received the SYN. -/
structure Start (c : Conn) : Prop where
  state : c.tsk.state = .established
  rcvNxt : c.tsk.rcvNxt = st.pos 0
  rcvOfoBuf : c.tsk.rcvOfoBuf = ⟨[], [], false⟩
  received : c.received = []
  halted : c.halted = none

/-- A packet without PSH ends where the data written so far ends, or after the FIN; a
segment that has to wait does not begin before the first one that waits. -/
def InOrder (c : Conn) : Event st → Prop
  | .deliver p ip tcp _ _ =>
    if st.flags p &&& tcpPsh = 0 then
      (st.cb p ip tcp).seqEnd = st.pos c.received.length ∨
        (st.cb p ip tcp).seqEnd = st.pos (st.total + 1)
    else
      c.tsk.rcvNxt < st.seq p →
        ∀ first ∈ c.tsk.rcvOfoBuf.entries.head?, first.seq ≤ st.seq p
  | .change _ => True

/-- Between calls `n` bytes have been received and the list holds later segments. -/
structure Ready (c : Conn) (n : ℕ) (entries : List OfoBuffer) : Prop where
  le_total : n ≤ st.total
  received : c.received = st.segs.flatten.take n
  rcvNxt : c.tsk.rcvNxt = st.pos n ∨ c.tsk.rcvNxt = st.pos (st.total + 1)
  rcvOfoBuf : c.tsk.rcvOfoBuf = ⟨entries, [], false⟩
  waiting : Waiting st (n + 1) entries

structure Inv (c : Conn) : Prop where
  prefix_bytes : c.received <+: st.segs.flatten
  defined : c.halted ≠ some .undefined
  ready : c.halted = none → ∃ n entries, Ready st c n entries

variable {st}

theorem flags_control {p : Sent st.segs.length} (h : st.flags p &&& tcpPsh = 0) :
    st.flags p ≠ tcpPsh ∧ st.flags p ≠ tcpPsh ||| tcpAck := by
  constructor <;> intro heq <;> rw [heq] at h <;> exact absurd h (by decide)

theorem eq_data_of_flags {p : Sent st.segs.length} (h : ¬st.flags p &&& tcpPsh = 0) :
    ∃ j, p = .data j := by
  cases p with
  | data j => exact ⟨j, rfl⟩
  | syn withAck =>
    cases withAck
    · exact absurd (show tcpSyn &&& tcpPsh = 0 by decide) h
    · exact absurd (show (tcpSyn ||| tcpAck) &&& tcpPsh = 0 by decide) h
  | ack i => exact absurd (show tcpAck &&& tcpPsh = 0 by decide) h
  | ackAfterFin => exact absurd (show tcpAck &&& tcpPsh = 0 by decide) h
  | fin withAck =>
    cases withAck
    · exact absurd (show tcpFin &&& tcpPsh = 0 by decide) h
    · exact absurd (show (tcpAck ||| tcpFin) &&& tcpPsh = 0 by decide) h

theorem quiet_entered (tsk : TcpSock) (cb : TcpCb) (reads : List ℕ) :
    Quiet ⟨updateRcvNxt tsk cb, reads, []⟩ (entered tsk cb reads) := by
  simp only [entered]
  split_ifs
  · exact quiet_processAck _ cb
  · exact .refl _

/-- A packet without PSH changes `rcv_nxt` and nothing else of the receive side, if the
call returns. -/
theorem tcpProcess_control (tsk : TcpSock) {cb : TcpCb} (newIss : UInt32) (reads : List ℕ)
    (hflags : cb.flags &&& tcpPsh = 0) (hpsh : cb.flags ≠ tcpPsh ∧ cb.flags ≠ tcpPsh ||| tcpAck) :
    (∃ run, tcpProcess tsk cb newIss reads = .ok run ∧ run.tsk.rcvNxt = cb.seqEnd ∧
      run.tsk.rcvOfoBuf = tsk.rcvOfoBuf ∧ written run.actions = []) ∨
    ∃ run, tcpProcess tsk cb newIss reads = .error (.listHead, run) ∧
      written run.actions = [] := by
  have hupdate : updateRcvNxt tsk cb = { tsk with rcvNxt := cb.seqEnd } := if_pos hflags
  have hquiet := quiet_entered tsk cb reads
  rw [hupdate] at hquiet
  by_cases hlost : (entered tsk cb reads).Lost
  · exact .inr ⟨_, tcpProcess_of_lost tsk cb newIss reads hlost, hquiet.written_eq⟩
  · obtain ⟨run, hrun, hswitch⟩ := quiet_processFlags (entered tsk cb reads) newIss hpsh
    have h := hquiet.trans hswitch
    rw [← tcpProcess_of_not_lost tsk cb newIss reads hlost] at hrun
    exact .inl ⟨run, hrun, h.rcvNxt, h.rcvOfoBuf, h.written_eq⟩

theorem processFlags_psh {run : Run} {cb : TcpCb} {newIss : UInt32} (h : cb.flags = tcpPsh) :
    processFlags run cb newIss = processPsh run cb := by
  simp only [processFlags, h]
  rfl

theorem tcpProcess_data {tsk : TcpSock} {cb : TcpCb} {newIss : UInt32} {reads : List ℕ}
    (h : cb.flags = tcpPsh) :
    tcpProcess tsk cb newIss reads = processPsh ⟨tsk, reads, []⟩ cb := by
  have hupdate : updateRcvNxt tsk cb = tsk := if_neg (by rw [h]; decide)
  rw [tcpProcess_of_not_ack tsk cb newIss reads (by rw [h]; decide), hupdate]
  exact processFlags_psh h

/-- What processing of a segment leaves, in terms of the stream. -/
def Advanced (st : Stream) (base : List UInt8) (run : Run) : Prop :=
  ∃ n entries, Reached st base n run ∧
    (run.tsk.rcvNxt = st.pos n ∨ run.tsk.rcvNxt = st.pos (st.total + 1)) ∧
    run.tsk.rcvOfoBuf = ⟨entries, [], false⟩ ∧ Waiting st (n + 1) entries

theorem Advanced.quiet {base : List UInt8} {run run' : Run} (h : Advanced st base run)
    (hq : Quiet run run') : Advanced st base run' := by
  obtain ⟨n, entries, hreach, hnxt, hofo, hwait⟩ := h
  refine ⟨n, entries, hreach.of_written hq.written_eq, ?_, hq.rcvOfoBuf.trans hofo, hwait⟩
  rw [hq.rcvNxt]
  exact hnxt

theorem cb_data_ofo (j : Fin st.segs.length) (ip : IpHdr) (tcp : TcpHdr) :
    (st.cb (.data j) ip tcp).ofoBuffer = st.ofo j := by
  have hend : (st.cb (.data j) ip tcp).seqEnd = st.pos (st.bound (j + 1)) := by
    rw [st.cb_seqEnd, st.bound_succ, ← st.pos_add]
    have hflags : ¬st.flags (.data j) &&& (tcpSyn ||| tcpFin) ≠ 0 :=
      show ¬tcpPsh &&& (tcpSyn ||| tcpFin) ≠ 0 by decide
    rw [if_neg hflags]
    simp [Stream.seq, Stream.payload]
  simp only [TcpCb.ofoBuffer, Stream.ofo, hend, Stream.cb_seq, Stream.cb_payload,
    Stream.cb_plLen, Int.toNat_natCast, List.take_length]
  rfl

theorem storeInOrder_ends {base : List UInt8} {run : Run} {entries : List OfoBuffer}
    {j : Fin st.segs.length} {ip : IpHdr} {tcp : TcpHdr}
    (hreach : Reached st base (st.bound j) run)
    (hlist : run.tsk.rcvOfoBuf = ⟨entries, [], false⟩)
    (hwait : Waiting st (st.bound j + 1) entries) :
    Ends (storeInOrder run (st.cb (.data j) ip tcp)) (Advanced st base) (Partial st base) := by
  have hofo := cb_data_ofo j ip tcp
  have hend : (st.cb (.data j) ip tcp).seqEnd = st.pos (st.bound (j + 1)) :=
    congrArg OfoBuffer.seqEnd hofo
  -- What begins after segment `j` begins at its end or later.
  have hwait' : Waiting st (st.bound (j + 1)) entries := by
    refine ⟨hwait.sorted, fun buf hbuf => ?_⟩
    obtain ⟨k, hk, rfl⟩ := hwait.segment buf hbuf
    exact ⟨k, st.bound_mono (st.lt_of_bound_lt (by omega)), rfl⟩
  unfold storeInOrder
  rw [st.cb_payload, st.cb_plLen]
  apply (hreach.storeData_ends (j := j)).bind
  intro run' hs
  have hlist' : run'.tsk.rcvOfoBuf = ⟨entries, [], false⟩ := hs.2.1.trans hlist
  rw [hlist', hend, if_neg Bool.false_ne_true]
  apply (drainOfo_ends entries (hreach.store hs) hwait' hlist').bind
  intro r hr
  obtain ⟨m, rest, hm, hreach', hrest, hlist''⟩ := hr
  exact ⟨m, rest, hreach'.of_written rfl, .inl hm, hlist'', hrest⟩

theorem processData_ends {base : List UInt8} {run : Run} {n : ℕ} {entries : List OfoBuffer}
    {j : Fin st.segs.length} (ip : IpHdr) (tcp : TcpHdr) (hreach : Reached st base n run)
    (hnxt : run.tsk.rcvNxt = st.pos n ∨ run.tsk.rcvNxt = st.pos (st.total + 1))
    (hlist : run.tsk.rcvOfoBuf = ⟨entries, [], false⟩) (hwait : Waiting st (n + 1) entries)
    (hfirst : run.tsk.rcvNxt < st.pos (st.bound j) →
      ∀ first ∈ entries.head?, first.seq ≤ st.pos (st.bound j)) :
    Ends (processData run (st.cb (.data j) ip tcp)) (Advanced st base) (Partial st base) := by
  have hbj := st.bound_le_total j
  have hn := hreach.le_total
  have hseq : (st.cb (.data j) ip tcp).seq = st.pos (st.bound j) := rfl
  unfold processData
  rw [hseq]
  split_ifs with heq hlt
  · have hat : n = st.bound j := by
      rcases hnxt with h | h
      · exact (st.pos_eq_pos (by omega) (by omega)).mp (h.symm.trans heq)
      · have := (st.pos_eq_pos (by omega) (by omega)).mp (h.symm.trans heq)
        omega
    subst hat
    apply Ends.map (storeInOrder_ends hreach hlist hwait)
    intro r hr
    exact hr.quiet (quiet_finishData r)
  · have hat : n < st.bound j ∧ run.tsk.rcvNxt = st.pos n := by
      rcases hnxt with h | h
      · rw [h] at hlt
        exact ⟨(st.pos_lt_pos (by omega) (by omega)).mp hlt, h⟩
      · rw [h] at hlt
        have := (st.pos_lt_pos (by omega) (by omega)).mp hlt
        omega
    obtain ⟨entries', hinsert, hwait'⟩ := hwait.insert hat.1 (hfirst hlt)
    have hdefined : ¬((st.cb (.data j) ip tcp).plLen < 0 ∨ false = true) := by
      rw [st.cb_plLen]
      simp
    unfold writeOfoBuffer
    rw [hlist, if_neg hdefined, cb_data_ofo]
    have hstored : Advanced st base
        (run.update fun tsk => { tsk with rcvOfoBuf := tsk.rcvOfoBuf.insert (st.ofo j) }) :=
      ⟨n, entries', hreach.of_written rfl, .inl hat.2, by rw [← hinsert, ← hlist]; rfl, hwait'⟩
    exact hstored.quiet (quiet_finishData _)
  · exact Advanced.quiet ⟨n, entries, hreach, hnxt, hlist, hwait⟩
      (quiet_tcpSendControlPacket _ _)

/-- The state that the switch may set first is no matter for the data. -/
theorem processPsh_ends {base : List UInt8} {run : Run} {n : ℕ} {entries : List OfoBuffer}
    {j : Fin st.segs.length} (ip : IpHdr) (tcp : TcpHdr) (hreach : Reached st base n run)
    (hnxt : run.tsk.rcvNxt = st.pos n ∨ run.tsk.rcvNxt = st.pos (st.total + 1))
    (hlist : run.tsk.rcvOfoBuf = ⟨entries, [], false⟩) (hwait : Waiting st (n + 1) entries)
    (hfirst : run.tsk.rcvNxt < st.pos (st.bound j) →
      ∀ first ∈ entries.head?, first.seq ≤ st.pos (st.bound j)) :
    Ends (processPsh run (st.cb (.data j) ip tcp)) (Advanced st base) (Partial st base) := by
  unfold processPsh
  split_ifs
  · exact processData_ends ip tcp (hreach.of_written rfl) hnxt hlist hwait hfirst
  · exact processData_ends ip tcp hreach hnxt hlist hwait hfirst

/-- The invariant of a connection is kept by every event in order. -/
theorem step_inv {c c' : Conn} {e : Event st} (h : Inv st c) (hok : InOrder st c e)
    (hs : step st c e = some c') : Inv st c' := by
  cases e with
  | change tsk =>
    simp only [step] at hs
    split_ifs at hs with hkeep
    obtain ⟨hhalt, hnxt, hofo⟩ := hkeep
    obtain ⟨n, entries, hr⟩ := h.ready hhalt
    cases hs
    refine ⟨h.prefix_bytes, h.defined, fun _ => ⟨n, entries, ?_⟩⟩
    exact ⟨hr.le_total, hr.received, hnxt ▸ hr.rcvNxt, hofo.trans hr.rcvOfoBuf, hr.waiting⟩
  | deliver p ip tcp newIss reads =>
    simp only [step] at hs
    split_ifs at hs with hhalt
    obtain ⟨n, entries, hr⟩ := h.ready hhalt
    cases hs
    simp only [InOrder] at hok
    have hlen : c.received.length = n := by
      have hn := hr.le_total
      rw [hr.received, List.length_take]
      exact min_eq_left hn
    split_ifs at hok with hflags
    · obtain ⟨run, hrun, hnxt, hofo, hnone⟩ | ⟨run, hrun, hnone⟩ :=
        tcpProcess_control c.tsk newIss reads
          (show (st.cb p ip tcp).flags &&& tcpPsh = 0 from hflags) (flags_control hflags)
      · rw [hrun]
        have hsame : (c.after (.ok run)).received = c.received := by
          simp only [Conn.after, hnone, List.append_nil]
        refine ⟨hsame ▸ h.prefix_bytes, by simp [Conn.after], fun _ => ⟨n, entries, ?_⟩⟩
        refine ⟨hr.le_total, hsame.trans hr.received, ?_, hofo.trans hr.rcvOfoBuf, hr.waiting⟩
        simp only [Conn.after, hnxt]
        rw [hlen] at hok
        exact hok
      · rw [hrun]
        have hsame : (c.after (.error (.listHead, run))).received = c.received := by
          simp only [Conn.after, hnone, List.append_nil]
        exact ⟨hsame ▸ h.prefix_bytes, by simp [Conn.after], by simp [Conn.after]⟩
    · obtain ⟨j, rfl⟩ := eq_data_of_flags hflags
      rw [tcpProcess_data rfl]
      have hreach : Reached st c.received n ⟨c.tsk, reads, []⟩ :=
        ⟨hr.le_total, by rw [← hr.received]; exact List.append_nil _⟩
      rw [hr.rcvOfoBuf] at hok
      have hends := processPsh_ends ip tcp hreach hr.rcvNxt hr.rcvOfoBuf hr.waiting hok
      cases hproc : processPsh ⟨c.tsk, reads, []⟩ (st.cb (.data j) ip tcp) with
      | ok run =>
        rw [hproc] at hends
        obtain ⟨m, rest, hreach, hnxt, hofo, hwait⟩ := hends
        refine ⟨hreach.prefix_bytes, by simp [Conn.after], fun _ => ⟨m, rest, ?_⟩⟩
        exact ⟨hreach.le_total, hreach.bytes, hnxt, hofo, hwait⟩
      | error e =>
        rw [hproc] at hends
        obtain ⟨hdefined, m, hreach⟩ := hends
        refine ⟨hreach.prefix_bytes, ?_, by simp [Conn.after]⟩
        exact fun heq => hdefined (Option.some.inj heq)

theorem start_inv {c : Conn} (h : Start st c) : Inv st c := by
  refine ⟨by rw [h.received]; exact List.nil_prefix, by simp [h.halted],
    fun _ => ⟨0, [], ?_⟩⟩
  exact ⟨Nat.zero_le _, h.received, .inl h.rcvNxt, h.rcvOfoBuf, ⟨.nil, by simp⟩⟩

/-- In order, whatever is lost or delivered again, the data written is a prefix of the
stream and no call touches freed memory. -/
theorem receive_prefix (st : Stream) {c : Conn}
    (h : Reaches (step st) (InOrder st) (Start st) c) :
    c.received <+: st.segs.flatten ∧ c.halted ≠ some .undefined := by
  have hinv := h.invariant (Inv st) (fun _ => start_inv) fun _ _ _ hi hok hs => step_inv hi hok hs
  exact ⟨hinv.prefix_bytes, hinv.defined⟩

end Connection

section Instance

/-- Five bytes in four segments. -/
def letters : Stream where
  isn := 0
  segs := [[1, 2], [3], [4], [5]]
  mss_bound := by decide
  no_wrap := by decide

def connected : Conn where
  tsk := { allocTcpSock with state := .established, rcvNxt := 1 }
  received := []
  halted := none

theorem connected_start : Start letters connected := ⟨rfl, rfl, rfl, rfl, rfl⟩

def ipHdr : IpHdr := ⟨4, 5, 0, 40, 0, 0, 64, ipprotoTcp, 0, 1, 2⟩
def tcpHdr : TcpHdr := ⟨80, 1024, 0, 0, 5, 0, 8192, 0, 0⟩

def arrives (p : Sent 4) : Event letters := .deliver p ipHdr tcpHdr 0 []

instance (c : Conn) : (e : Event letters) → Decidable (InOrder letters c e)
  | .deliver p ip tcp _ _ => inferInstanceAs (Decidable (
    if letters.flags p &&& tcpPsh = 0 then
      (letters.cb p ip tcp).seqEnd = letters.pos c.received.length ∨
        (letters.cb p ip tcp).seqEnd = letters.pos (letters.total + 1)
    else
      c.tsk.rcvNxt < letters.seq p →
        ∀ first ∈ c.tsk.rcvOfoBuf.entries.head?, first.seq ≤ letters.seq p))
  | .change _ => isTrue trivial

/-- The first segment is late and arrives twice; the FIN overtakes the last ACK. -/
def reordered : List (Event letters) :=
  [arrives (.data 1), arrives (.data 2), arrives (.data 0), arrives (.data 0),
    arrives (.fin false), arrives (.ack 3)]

theorem reordered_isSome :
    (exec (step letters) (InOrder letters) connected reordered).isSome := by
  decide +kernel

theorem receive_prefix_reordered : ∃ c : Conn, c.received = [1, 2, 3, 4] ∧
    c.received <+: letters.segs.flatten ∧ c.halted ≠ some .undefined := by
  have hrun := Option.some_get reordered_isSome
  refine ⟨_, ?_, receive_prefix letters (.of_exec (.start connected_start) hrun.symm)⟩
  decide +kernel

/-- A pure ACK that was sent before the first segment arrives after it. -/
def stale : List (Event letters) := [arrives (.data 0), arrives (.ack 0), arrives (.data 0)]

theorem stale_isSome : (exec (step letters) anyStep connected stale).isSome := by
  decide +kernel

/-- The stale ACK sets `rcv_nxt` back, and the segment that arrives again is written again. -/
theorem stale_ack_repeats_bytes : ∃ c : Conn,
    Reaches (step letters) anyStep (Start letters) c ∧ c.received = [1, 2, 1, 2] ∧
      ¬c.received <+: letters.segs.flatten := by
  have hrun := Option.some_get stale_isSome
  refine ⟨_, .of_exec (.start connected_start) hrun.symm, ?_, ?_⟩
  · decide +kernel
  · decide +kernel

/-- A segment put before the first one that waits is lost, and freeing the first one then
leaves the list with a pointer to it. -/
example : ((exec (step letters) anyStep connected [arrives (.data 2), arrives (.data 1),
    arrives (.data 0), arrives (.data 1), arrives (.data 3)]).map Conn.halted) =
      some (some .undefined) := by
  decide +kernel

end Instance

end NetworkLab.Tcp
