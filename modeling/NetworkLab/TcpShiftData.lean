import NetworkLab.TcpShift

/-!
# When the handling of data moves along with the sequence numbers

Storing data looks at no sequence number. The loop over `rcv_ofo_buf`, the insertion
into it and the choice between the cases of a segment compare with the plain order;
each of them moves along exactly when the comparisons that it makes come out alike.
-/
namespace NetworkLab.Tcp
open Outcomes Translation

variable (o : Offset)

section Store

theorem shiftResult_bind {α β : Type} {f : α → α} {g : β → β} {r : Except (Stop × Run) α}
    {k k' : α → Except (Stop × Run) β}
    (h : ∀ a, r = .ok a → k' (f a) = shiftResult o g (k a)) :
    shiftResult o f r >>= k' = shiftResult o g (r >>= k) := by
  cases r with
  | ok a => exact h a rfl
  | error e => rfl

theorem waitSpace_shift (n : ℤ) (tsk : TcpSock) (actions : List Action) (reads : List ℕ) :
    waitSpace n (tsk.shift o) (actions.map (·.shift o)) reads =
      (waitSpace n tsk actions reads).shift o := by
  have hfree (tsk : TcpSock) : (tsk.shift o).ringBufferFree = tsk.ringBufferFree := rfl
  have hwake (actions : List Action) :
      actions.map (Action.shift o) ++ [Action.wakeUp WaitName.read] =
      (actions ++ [Action.wakeUp WaitName.read]).map (Action.shift o) := by
    rw [List.map_append]
    rfl
  induction reads generalizing tsk actions with
  | nil =>
    simp only [waitSpace, hfree, hwake]
    split_ifs <;> rfl
  | cons len reads ih =>
    simp only [waitSpace, hfree, hwake]
    split_ifs
    · exact ih (tsk.read len) _
    · rfl

theorem writeRingBuffer_shift (run : Run) (data : List UInt8) (n : ℤ) :
    writeRingBuffer (run.shift o) data n = (writeRingBuffer run data n).shift o := by
  have hfree : (run.shift o).tsk.ringBufferFree = run.tsk.ringBufferFree := rfl
  unfold writeRingBuffer
  rw [hfree]
  split_ifs
  · have hact := shift_act o (run.update fun tsk =>
      { tsk with
        rcvBuf := tsk.rcvBuf ++ data.take n.toNat
        rcvWnd := tsk.rcvWnd - UInt16.ofNat n.toNat }) (.writeRingBuffer (data.take n.toNat))
    exact congrArg Except.ok hact.symm
  · rfl

theorem storeData_shift (run : Run) (data : List UInt8) (n : ℤ) :
    storeData (run.shift o) data n = (storeData run data n).shift o := by
  unfold storeData
  simp only [Run.shift_tsk, Run.shift_actions, Run.shift_reads, waitSpace_shift]
  exact shiftResult_bind o fun a _ => writeRingBuffer_shift o a data n

/-- What storing looks at: the unread bytes and the reads to come. -/
def Run.room (run : Run) : List UInt8 × List ℕ := (run.tsk.rcvBuf, run.reads)

theorem waitSpace_room {n : ℤ} {tsk tsk' : TcpSock} (actions actions' : List Action)
    {reads : List ℕ} {run : Run} (h : waitSpace n tsk actions reads = .ok run)
    (hbuf : tsk.rcvBuf = tsk'.rcvBuf) :
    ∃ run', waitSpace n tsk' actions' reads = .ok run' ∧ run.room = run'.room := by
  have hfree {tsk tsk' : TcpSock} (hbuf : tsk.rcvBuf = tsk'.rcvBuf) :
      tsk'.ringBufferFree = tsk.ringBufferFree := by
    simp only [TcpSock.ringBufferFree, hbuf]
  induction reads generalizing tsk tsk' actions actions' with
  | nil =>
    simp only [waitSpace, hfree hbuf] at h ⊢
    split_ifs at h ⊢
    cases h
    exact ⟨_, rfl, Prod.ext hbuf rfl⟩
  | cons len reads ih =>
    simp only [waitSpace, hfree hbuf] at h ⊢
    split_ifs at h ⊢
    · exact ih _ _ h (by simp only [TcpSock.read, hbuf])
    · cases h
      exact ⟨_, rfl, Prod.ext hbuf rfl⟩

theorem writeRingBuffer_room {run run' : Run} {data : List UInt8} {n : ℤ} {a : Run}
    (h : writeRingBuffer run data n = .ok a) (hroom : run.room = run'.room) :
    ∃ b, writeRingBuffer run' data n = .ok b ∧ a.room = b.room := by
  have hbuf : run.tsk.rcvBuf = run'.tsk.rcvBuf := congrArg Prod.fst hroom
  have hreads : run.reads = run'.reads := congrArg Prod.snd hroom
  have hfree : run'.tsk.ringBufferFree = run.tsk.ringBufferFree := by
    simp only [TcpSock.ringBufferFree, hbuf]
  unfold writeRingBuffer at h ⊢
  rw [hfree]
  split_ifs at h with hfit
  cases h
  rw [if_pos hfit]
  exact ⟨_, rfl, Prod.ext (congrArg (· ++ data.take n.toNat) hbuf) hreads⟩

theorem storeData_room {run run' : Run} {data : List UInt8} {n : ℤ} {a : Run}
    (h : storeData run data n = .ok a) (hroom : run.room = run'.room) :
    ∃ b, storeData run' data n = .ok b ∧ a.room = b.room := by
  have hbuf : run.tsk.rcvBuf = run'.tsk.rcvBuf := congrArg Prod.fst hroom
  have hreads : run.reads = run'.reads := congrArg Prod.snd hroom
  unfold storeData at h ⊢
  rw [← hreads]
  cases hwait : waitSpace n run.tsk run.actions run.reads with
  | error e =>
    rw [hwait] at h
    cases h
  | ok r =>
    obtain ⟨r', hwait', hroom'⟩ := waitSpace_room run.actions run'.actions hwait hbuf
    rw [hwait] at h
    rw [hwait']
    exact writeRingBuffer_room h hroom'

theorem storeData_rcvOfoBuf {run a : Run} {data : List UInt8} {n : ℤ}
    (h : storeData run data n = .ok a) : a.tsk.rcvOfoBuf = run.tsk.rcvOfoBuf := by
  have hkept : KeptByStore (fun _ _ => True) fun _ => True :=
    ⟨fun _ _ _ _ => trivial, fun _ _ _ => trivial, fun _ _ _ => trivial,
      fun _ _ _ _ _ _ _ => trivial⟩
  have hends : EndsIn (fun run' => True ∧ run'.tsk.rcvOfoBuf = run.tsk.rcvOfoBuf) id
      (storeData run data n) :=
    (hkept.ofo run.tsk.rcvOfoBuf).storeData trivial ⟨trivial, rfl⟩
  rw [h] at hends
  exact hends.2

end Store

section Drain

/-- The comparisons of the loop over `rcv_ofo_buf` come out alike. The loop gets to the
next entry when the data of this one could be stored. -/
def DrainKeeps : List OfoBuffer → UInt32 → Run → Prop
  | [], _, _ => True
  | ofo :: rest, seqEnd, run =>
    Keeps o.recv seqEnd ofo.seq ∧ (¬seqEnd < ofo.seq →
      ∀ run', storeData run ofo.payload ofo.plLen = .ok run' →
        DrainKeeps rest ofo.seqEnd run')

variable {o}

theorem DrainKeeps.congr {entries : List OfoBuffer} {seqEnd : UInt32} {run run' : Run}
    (h : DrainKeeps o entries seqEnd run) (hroom : run.room = run'.room) :
    DrainKeeps o entries seqEnd run' := by
  induction entries generalizing seqEnd run run' with
  | nil => exact trivial
  | cons ofo rest ih =>
    refine ⟨h.1, fun hle b hb => ?_⟩
    obtain ⟨a, ha, hroom'⟩ := storeData_room hb hroom.symm
    exact ih (h.2 hle a ha) hroom'.symm

/-- The run that a drained entry leaves. -/
theorem deleteFirst_shift (run : Run) (rest : List OfoBuffer) :
    (run.shift o).update (fun tsk =>
        { tsk with rcvOfoBuf := tsk.rcvOfoBuf.deleteFirst (rest.map (·.shift o)) }) =
      (run.update fun tsk => { tsk with rcvOfoBuf := tsk.rcvOfoBuf.deleteFirst rest }).shift o := by
  apply update_shift
  simp only [TcpSock.shift, OfoList.deleteFirst, OfoList.shift, List.isEmpty_map]

theorem drainOfo_shift {entries : List OfoBuffer} {seqEnd : UInt32} {run : Run}
    (h : DrainKeeps o entries seqEnd run) :
    drainOfo (entries.map (·.shift o)) (seqEnd + o.recv) (run.shift o) =
      shiftResult o (fun r => (r.1 + o.recv, r.2.shift o)) (drainOfo entries seqEnd run) := by
  induction entries generalizing seqEnd run with
  | nil => rfl
  | cons ofo rest ih =>
    obtain ⟨hkeep, hrest⟩ := h
    simp only [drainOfo, List.map_cons, OfoBuffer.shift_seq, OfoBuffer.shift_seqEnd,
      OfoBuffer.shift_payload, OfoBuffer.shift_plLen, hkeep.lt_iff, storeData_shift]
    split_ifs with hlt
    · rfl
    · apply shiftResult_bind o
      intro a ha
      rw [deleteFirst_shift]
      exact ih ((hrest hlt a ha).congr rfl)

/-- Entries that are left when the loop returns. -/
def remaining (r : Except (Stop × Run) (UInt32 × Run)) : Option ℕ :=
  r.toOption.map fun r => r.2.tsk.rcvOfoBuf.entries.length

theorem remaining_stop {entries : List OfoBuffer} {seqEnd : UInt32} {run : Run}
    (hlist : run.tsk.rcvOfoBuf.entries = entries) :
    remaining (.ok (seqEnd, run)) = some entries.length := by
  simp only [remaining, Except.toOption, Option.map_some, hlist]

/-- The loop from an entry that it takes from the list. -/
def takeEntry (ofo : OfoBuffer) (rest : List OfoBuffer) (run : Run) :
    Except (Stop × Run) (UInt32 × Run) := do
  let run ← storeData run ofo.payload ofo.plLen
  drainOfo rest ofo.seqEnd (run.update fun tsk =>
    { tsk with rcvOfoBuf := tsk.rcvOfoBuf.deleteFirst rest })

theorem drainOfo_cons (ofo : OfoBuffer) (rest : List OfoBuffer) (seqEnd : UInt32) (run : Run) :
    drainOfo (ofo :: rest) seqEnd run =
      if seqEnd < ofo.seq then .ok (seqEnd, run) else takeEntry ofo rest run := rfl

theorem takeEntry_of_stored {ofo : OfoBuffer} (rest : List OfoBuffer) {run a : Run}
    (h : storeData run ofo.payload ofo.plLen = .ok a) :
    takeEntry ofo rest run = drainOfo rest ofo.seqEnd (a.update fun tsk =>
      { tsk with rcvOfoBuf := tsk.rcvOfoBuf.deleteFirst rest }) := by
  simp only [takeEntry, h]
  rfl

theorem remaining_le (entries : List OfoBuffer) {seqEnd : UInt32} {run : Run}
    (hlist : run.tsk.rcvOfoBuf.entries = entries) {m : ℕ}
    (h : remaining (drainOfo entries seqEnd run) = some m) : m ≤ entries.length := by
  induction entries generalizing seqEnd run with
  | nil =>
    rw [drainOfo, remaining_stop hlist] at h
    exact (Option.some.inj h).symm.le
  | cons ofo rest ih =>
    rw [drainOfo_cons] at h
    split_ifs at h
    · rw [remaining_stop hlist] at h
      exact (Option.some.inj h).symm.le
    · cases hs : storeData run ofo.payload ofo.plLen with
      | error e =>
        rw [takeEntry, hs] at h
        cases h
      | ok a =>
        rw [takeEntry_of_stored rest hs] at h
        exact (ih rfl h).trans (Nat.le_succ _)

theorem remaining_takeEntry_ne (ofo : OfoBuffer) (rest : List OfoBuffer) (run : Run) :
    remaining (takeEntry ofo rest run) ≠ some (rest.length + 1) := by
  intro h
  cases hs : storeData run ofo.payload ofo.plLen with
  | error e =>
    rw [takeEntry, hs] at h
    cases h
  | ok a =>
    rw [takeEntry_of_stored rest hs] at h
    have hle := remaining_le rest rfl h
    omega

/-- Where a comparison comes out differently, one run stops at the entry and the other
takes it from the list or does not return. -/
theorem drainKeeps_of_remaining {entries : List OfoBuffer} {seqEnd : UInt32} {run : Run}
    (hlist : run.tsk.rcvOfoBuf.entries = entries)
    (h : remaining (drainOfo (entries.map (·.shift o)) (seqEnd + o.recv) (run.shift o)) =
      remaining (drainOfo entries seqEnd run)) : DrainKeeps o entries seqEnd run := by
  induction entries generalizing seqEnd run with
  | nil => exact trivial
  | cons ofo rest ih =>
    have hlist' : (run.shift o).tsk.rcvOfoBuf.entries =
        (ofo :: rest).map (·.shift o) := congrArg (List.map (OfoBuffer.shift o)) hlist
    rw [List.map_cons, drainOfo_cons, drainOfo_cons, OfoBuffer.shift_seq] at h
    by_cases hkeep : Keeps o.recv seqEnd ofo.seq
    · refine ⟨hkeep, fun hlt a ha => ?_⟩
      have hstore : storeData (run.shift o) (ofo.shift o).payload (ofo.shift o).plLen =
          .ok (a.shift o) := by
        rw [OfoBuffer.shift_payload, OfoBuffer.shift_plLen, storeData_shift, ha]
        rfl
      rw [if_neg (hkeep.lt_iff.not.mpr hlt), if_neg hlt, takeEntry_of_stored _ hstore,
        takeEntry_of_stored _ ha, deleteFirst_shift] at h
      exact (ih rfl h).congr rfl
    · have hiff := lt_add_iff_not_of_not_keeps hkeep
      by_cases hlt : seqEnd < ofo.seq
      · have hshift : ¬seqEnd + o.recv < ofo.seq + o.recv := fun hlt' => hiff.mp hlt' hlt
        rw [if_neg hshift, if_pos hlt, remaining_stop hlist] at h
        have hne := remaining_takeEntry_ne (ofo.shift o) (rest.map (·.shift o)) (run.shift o)
        rw [List.length_map] at hne
        exact absurd h hne
      · rw [if_pos (hiff.mpr hlt), if_neg hlt, remaining_stop hlist', List.length_map] at h
        exact absurd h.symm (remaining_takeEntry_ne ofo rest run)

end Drain

section Insert

/-- The comparisons of `write_ofo_buffer` with the entries come out alike. -/
def InsertKeeps (seq : UInt32) (entries : List OfoBuffer) : Prop :=
  AlongWalk (fun pos => pos.seq < seq) (fun pos => Keeps o.recv pos.seq seq) entries

variable {o}

theorem insertOfo_shift {buf : OfoBuffer} {entries : List OfoBuffer}
    (h : InsertKeeps o buf.seq entries) :
    insertOfo (buf.shift o) (entries.map (·.shift o)) =
      (insertOfo buf entries).map (·.shift o) := by
  induction entries with
  | nil => rfl
  | cons pos rest ih =>
    obtain ⟨hkeep, hrest⟩ := h
    simp only [insertOfo, List.map_cons, OfoBuffer.shift_seq, gt_iff_lt, hkeep.lt_iff,
      UInt32.add_left_inj]
    split_ifs with hlt heq
    · rw [ih (hrest hlt), List.map_cons]
    · rw [List.map_cons]
    · rw [List.map_cons, List.map_cons]

theorem insert_shift {l : OfoList} (buf : OfoBuffer) (h : InsertKeeps o buf.seq l.entries) :
    (l.shift o).insert (buf.shift o) = (l.insert buf).shift o := by
  obtain ⟨entries, hidden, dangling⟩ := l
  cases entries with
  | nil => rfl
  | cons pos rest =>
    obtain ⟨hkeep, hrest⟩ := h
    simp only [OfoList.insert, OfoList.shift, List.map_cons, OfoBuffer.shift_seq, gt_iff_lt,
      hkeep.lt_iff, UInt32.add_left_inj]
    split_ifs with hlt heq
    · simp only [List.map_cons, insertOfo_shift (hrest hlt)]
    · simp only [List.map_cons]
    · simp only [List.map_cons]

/-- Where a comparison comes out differently, the segment goes to another place. -/
theorem insertKeeps_of_insertOfo {buf : OfoBuffer} {entries : List OfoBuffer}
    (h : insertOfo (buf.shift o) (entries.map (·.shift o)) =
      (insertOfo buf entries).map (·.shift o)) : InsertKeeps o buf.seq entries := by
  induction entries with
  | nil => exact trivial
  | cons pos rest ih =>
    simp only [insertOfo, List.map_cons, OfoBuffer.shift_seq, gt_iff_lt,
      UInt32.add_left_inj] at h
    by_cases hkeep : Keeps o.recv pos.seq buf.seq
    · refine ⟨hkeep, fun hlt => ih ?_⟩
      rw [if_pos (hkeep.lt_iff.mpr hlt), if_pos hlt, List.map_cons] at h
      exact (List.cons.inj h).2
    · have hiff := lt_add_iff_not_of_not_keeps hkeep
      have hne : ¬buf.seq = pos.seq := fun heq => hkeep (.inl heq.symm)
      by_cases hlt : pos.seq < buf.seq
      · have hshift : ¬pos.seq + o.recv < buf.seq + o.recv := fun hlt' => hiff.mp hlt' hlt
        rw [if_neg hshift, if_neg hne, if_pos hlt, List.map_cons] at h
        have hseq := congrArg OfoBuffer.seq (List.cons.inj h).1
        exact absurd ((UInt32.add_left_inj _).mp hseq) hne
      · rw [if_pos (hiff.mpr hlt), if_neg hlt, if_neg hne, List.map_cons] at h
        have hseq := congrArg OfoBuffer.seq (List.cons.inj h).1
        exact absurd ((UInt32.add_left_inj _).mp hseq).symm hne

theorem insertKeeps_of_insert {l : OfoList} {buf : OfoBuffer}
    (h : (l.shift o).insert (buf.shift o) = (l.insert buf).shift o) :
    InsertKeeps o buf.seq l.entries := by
  obtain ⟨entries, hidden, dangling⟩ := l
  cases entries with
  | nil => exact trivial
  | cons pos rest =>
    simp only [OfoList.insert, OfoList.shift, List.map_cons, OfoBuffer.shift_seq, gt_iff_lt,
      UInt32.add_left_inj] at h
    by_cases hkeep : Keeps o.recv pos.seq buf.seq
    · refine ⟨hkeep, fun hlt => insertKeeps_of_insertOfo ?_⟩
      rw [if_pos (hkeep.lt_iff.mpr hlt), if_pos hlt] at h
      exact (List.cons.inj (congrArg OfoList.entries h)).2
    · have hiff := lt_add_iff_not_of_not_keeps hkeep
      have hne : ¬buf.seq = pos.seq := fun heq => hkeep (.inl heq.symm)
      by_cases hlt : pos.seq < buf.seq
      · have hshift : ¬pos.seq + o.recv < buf.seq + o.recv := fun hlt' => hiff.mp hlt' hlt
        rw [if_neg hshift, if_neg hne, if_pos hlt] at h
        have hlen := congrArg (fun l => l.hidden.length) h
        simp at hlen
      · rw [if_pos (hiff.mpr hlt), if_neg hlt, if_neg hne] at h
        have hlen := congrArg (fun l => l.hidden.length) h
        simp at hlen

/-- An insertion that leaves as many entries leaves the list as it is. -/
theorem length_insertOfo (buf : OfoBuffer) (entries : List OfoBuffer) :
    insertOfo buf entries = entries ∨
      (insertOfo buf entries).length = entries.length + 1 := by
  induction entries with
  | nil => exact .inr rfl
  | cons pos rest ih =>
    simp only [insertOfo]
    split_ifs
    · rcases ih with heq | hlen
      · exact .inl (by rw [heq])
      · exact .inr (by rw [List.length_cons, hlen, List.length_cons])
    · exact .inl rfl
    · exact .inr rfl

theorem insert_eq_of_length {l : OfoList} {buf : OfoBuffer}
    (hentries : (l.insert buf).entries.length = l.entries.length)
    (hhidden : (l.insert buf).hidden.length = l.hidden.length) : l.insert buf = l := by
  obtain ⟨entries, hidden, dangling⟩ := l
  cases entries with
  | nil => simp [OfoList.insert] at hentries
  | cons pos rest =>
    simp only [OfoList.insert] at hentries hhidden ⊢
    split_ifs at hentries hhidden ⊢ with hlt heq
    · rcases length_insertOfo buf rest with hsame | hlen
      · rw [hsame]
      · simp [hlen] at hentries
    · rfl
    · simp at hhidden

end Insert

section Psh

theorem wakeIf_shift (run : Run) (asleep : Bool) (wait : WaitName) :
    (run.shift o).wakeIf asleep wait = (run.wakeIf asleep wait).shift o := by
  unfold Run.wakeIf
  split_ifs
  · exact (shift_act o run (.wakeUp wait)).symm
  · rfl

theorem finishData_shift (run : Run) : finishData (run.shift o) = (finishData run).shift o := by
  unfold finishData
  simp only [Run.shift_tsk, TcpSock.shift_readSleep, wakeIf_shift, tcpSendControlPacket_shift,
    TcpSock.shift_cgtState, TcpSock.shift_sendSleep]

/-- A segment that waits is stored without a trace: its payload can be copied, it is in
the list already, and nobody is woken. -/
def Silent (tsk : TcpSock) (cb : TcpCb) : Prop :=
  0 ≤ cb.plLen ∧ tsk.rcvOfoBuf.dangling = false ∧
    tsk.rcvOfoBuf.insert cb.ofoBuffer = tsk.rcvOfoBuf ∧
    tsk.readSleep = false ∧ (tsk.cgtState = .opn && tsk.sendSleep) = false

/-- What the handling of a segment compares comes out alike. Where the segment is before
`rcv_nxt` in one run only, the other run stores it without a trace. -/
structure DataKeeps (run : Run) (cb : TcpCb) : Prop where
  drain : run.tsk.rcvNxt = cb.seq → run.tsk.rcvOfoBuf.dangling = false →
    ∀ run', storeData run cb.payload cb.plLen = .ok run' →
      DrainKeeps o run.tsk.rcvOfoBuf.entries cb.seqEnd run'
  insert : Keeps o.recv run.tsk.rcvNxt cb.seq → run.tsk.rcvNxt < cb.seq → 0 ≤ cb.plLen →
    run.tsk.rcvOfoBuf.dangling = false → InsertKeeps o cb.seq run.tsk.rcvOfoBuf.entries
  order : ¬Keeps o.recv run.tsk.rcvNxt cb.seq →
    if run.tsk.rcvNxt < cb.seq then Silent run.tsk cb
    else Silent (run.tsk.shift o) (cb.shift o)

variable {o}

theorem ofoBuffer_shift (cb : TcpCb) : (cb.shift o).ofoBuffer = cb.ofoBuffer.shift o := rfl

/-- Entries, hidden entries and actions of a run that returns. -/
def sizes (r : Result) : Option (ℕ × ℕ × ℕ) :=
  r.toOption.map fun run =>
    (run.tsk.rcvOfoBuf.entries.length, run.tsk.rcvOfoBuf.hidden.length, run.actions.length)

theorem sizes_shift (r : Result) : sizes (r.shift o) = sizes r := by
  cases r with
  | error e => rfl
  | ok run => simp [sizes, shiftResult, Except.toOption]

theorem writeOfoBuffer_eq (run : Run) {cb : TcpCb} (hlen : 0 ≤ cb.plLen)
    (hdangling : run.tsk.rcvOfoBuf.dangling = false) : writeOfoBuffer run cb =
      .ok (run.update fun tsk => { tsk with rcvOfoBuf := tsk.rcvOfoBuf.insert cb.ofoBuffer }) := by
  unfold writeOfoBuffer
  rw [hdangling, if_neg]
  simpa using hlen

/-- Otherwise the copy or the list is undefined. -/
theorem writeOfoBuffer_stop (run : Run) {cb : TcpCb}
    (h : ¬(0 ≤ cb.plLen ∧ run.tsk.rcvOfoBuf.dangling = false)) :
    writeOfoBuffer run cb = .error (.undefined, run) := by
  unfold writeOfoBuffer
  rw [if_pos]
  by_cases hlen : 0 ≤ cb.plLen
  · exact .inr (by simpa [hlen] using h)
  · exact .inl (not_le.mp hlen)

theorem finishData_of_silent (run : Run) {cb : TcpCb} (h : Silent run.tsk cb) :
    finishData <$> writeOfoBuffer run cb = .ok (tcpSendControlPacket run tcpAck) := by
  obtain ⟨hlen, hdangling, hinsert, hread, hsend⟩ := h
  have hsame : run.update (fun tsk =>
      { tsk with rcvOfoBuf := tsk.rcvOfoBuf.insert cb.ofoBuffer }) = run := by
    simp only [Run.update, hinsert]
  rw [writeOfoBuffer_eq run hlen hdangling, hsame]
  change Except.ok (finishData run) = _
  simp only [finishData, Run.wakeIf, hread, tsk_tcpSendControlPacket_ack, hsend,
    if_neg Bool.false_ne_true]

theorem length_wakeIf (run : Run) (asleep : Bool) (wait : WaitName) :
    (run.wakeIf asleep wait).actions.length = run.actions.length + asleep.toNat := by
  cases asleep with
  | false => rfl
  | true => simp [Run.wakeIf]

theorem length_tcpSendControlPacket (run : Run) (flags : UInt8) :
    (tcpSendControlPacket run flags).actions.length = run.actions.length + 1 := by
  simp [tcpSendControlPacket]

theorem length_finishData (run : Run) : (finishData run).actions.length =
    run.actions.length + run.tsk.readSleep.toNat + 1 +
      (run.tsk.cgtState = .opn && run.tsk.sendSleep).toNat := by
  unfold finishData
  simp only [length_wakeIf, length_tcpSendControlPacket, tsk_tcpSendControlPacket_ack, tsk_wakeIf]

theorem silent_of_sizes (run : Run) {cb : TcpCb}
    (h : sizes (finishData <$> writeOfoBuffer run cb) =
      sizes (.ok (tcpSendControlPacket run tcpAck))) : Silent run.tsk cb := by
  by_cases hdefined : 0 ≤ cb.plLen ∧ run.tsk.rcvOfoBuf.dangling = false
  · obtain ⟨hlen, hdangling⟩ := hdefined
    rw [writeOfoBuffer_eq run hlen hdangling] at h
    have hsizes := Option.some.inj h
    simp only [Prod.mk.injEq, tsk_finishData, length_finishData, length_tcpSendControlPacket,
      Run.update_tsk, Run.update_actions, tsk_tcpSendControlPacket_ack] at hsizes
    obtain ⟨hentries, hhidden, hactions⟩ := hsizes
    change run.actions.length + run.tsk.readSleep.toNat + 1 +
      (run.tsk.cgtState = .opn && run.tsk.sendSleep).toNat = _ at hactions
    have hread : run.tsk.readSleep.toNat = 0 := by omega
    have hsend : (run.tsk.cgtState = .opn && run.tsk.sendSleep).toNat = 0 := by omega
    exact ⟨hlen, hdangling, insert_eq_of_length hentries hhidden, Bool.toNat_eq_zero.mp hread,
      Bool.toNat_eq_zero.mp hsend⟩
  · rw [writeOfoBuffer_stop run hdefined] at h
    cases h

/-- Entries that are left when the handling of a segment returns. -/
theorem sizes_storeInOrder {run a : Run} {cb : TcpCb}
    (ha : storeData run cb.payload cb.plLen = .ok a)
    (hdangling : run.tsk.rcvOfoBuf.dangling = false) :
    (sizes (finishData <$> storeInOrder run cb)).map (·.1) =
      remaining (drainOfo run.tsk.rcvOfoBuf.entries cb.seqEnd a) := by
  have hlist := storeData_rcvOfoBuf ha
  unfold storeInOrder
  rw [ha]
  change (sizes (finishData <$> if a.tsk.rcvOfoBuf.dangling then _ else _)).map _ = _
  rw [hlist, hdangling, if_neg Bool.false_ne_true]
  cases drainOfo run.tsk.rcvOfoBuf.entries cb.seqEnd a with
  | error e => rfl
  | ok r =>
    change some (finishData _).tsk.rcvOfoBuf.entries.length = _
    rw [tsk_finishData]
    rfl

theorem storeInOrder_shift {run : Run} {cb : TcpCb}
    (h : run.tsk.rcvOfoBuf.dangling = false →
      ∀ a, storeData run cb.payload cb.plLen = .ok a →
        DrainKeeps o run.tsk.rcvOfoBuf.entries cb.seqEnd a) :
    storeInOrder (run.shift o) (cb.shift o) = (storeInOrder run cb).shift o := by
  unfold storeInOrder
  rw [TcpCb.shift_payload, TcpCb.shift_plLen, storeData_shift]
  apply shiftResult_bind o
  intro a ha
  have hlist := storeData_rcvOfoBuf ha
  simp only [Run.shift_tsk, TcpSock.shift_rcvOfoBuf, OfoList.shift_dangling,
    OfoList.shift_entries, TcpCb.shift_seqEnd, hlist]
  cases hdangling : run.tsk.rcvOfoBuf.dangling with
  | true => rfl
  | false =>
    rw [if_neg Bool.false_ne_true, if_neg Bool.false_ne_true, drainOfo_shift (h hdangling a ha)]
    exact shiftResult_bind o fun r _ => rfl

theorem map_finishData_shift (r : Result) :
    finishData <$> r.shift o = Result.shift o (finishData <$> r) := by
  cases r with
  | error e => rfl
  | ok run => exact congrArg Except.ok (finishData_shift o run)

theorem writeOfoBuffer_shift {run : Run} {cb : TcpCb}
    (h : 0 ≤ cb.plLen → run.tsk.rcvOfoBuf.dangling = false →
      InsertKeeps o cb.seq run.tsk.rcvOfoBuf.entries) :
    writeOfoBuffer (run.shift o) (cb.shift o) = (writeOfoBuffer run cb).shift o := by
  by_cases hdefined : 0 ≤ cb.plLen ∧ run.tsk.rcvOfoBuf.dangling = false
  · obtain ⟨hlen, hdangling⟩ := hdefined
    have hlen' : 0 ≤ (cb.shift o).plLen := hlen
    have hdangling' : (run.shift o).tsk.rcvOfoBuf.dangling = false := hdangling
    rw [writeOfoBuffer_eq run hlen hdangling, writeOfoBuffer_eq _ hlen' hdangling']
    refine congrArg Except.ok (update_shift o run ?_)
    have hinsert := insert_shift cb.ofoBuffer (h hlen hdangling)
    simp only [TcpSock.shift, ofoBuffer_shift, hinsert]
  · have hdefined' : ¬(0 ≤ (cb.shift o).plLen ∧
        (run.shift o).tsk.rcvOfoBuf.dangling = false) := hdefined
    rw [writeOfoBuffer_stop run hdefined, writeOfoBuffer_stop _ hdefined']
    rfl

theorem storeInOrder_shift_iff {run : Run} {cb : TcpCb} :
    finishData <$> storeInOrder (run.shift o) (cb.shift o) =
        Result.shift o (finishData <$> storeInOrder run cb) ↔
      (run.tsk.rcvOfoBuf.dangling = false →
        ∀ a, storeData run cb.payload cb.plLen = .ok a →
          DrainKeeps o run.tsk.rcvOfoBuf.entries cb.seqEnd a) := by
  constructor
  · intro h hdangling a ha
    have hshift : storeData (run.shift o) (cb.shift o).payload (cb.shift o).plLen =
        .ok (a.shift o) := by
      rw [TcpCb.shift_payload, TcpCb.shift_plLen, storeData_shift, ha]
      rfl
    have hleft := sizes_storeInOrder hshift hdangling
    rw [h, sizes_shift, sizes_storeInOrder ha hdangling] at hleft
    exact drainKeeps_of_remaining (congrArg OfoList.entries (storeData_rcvOfoBuf ha)) hleft.symm
  · intro h
    rw [storeInOrder_shift h, map_finishData_shift]

theorem writeOfoBuffer_shift_iff {run : Run} {cb : TcpCb} :
    finishData <$> writeOfoBuffer (run.shift o) (cb.shift o) =
        Result.shift o (finishData <$> writeOfoBuffer run cb) ↔
      (0 ≤ cb.plLen → run.tsk.rcvOfoBuf.dangling = false →
        InsertKeeps o cb.seq run.tsk.rcvOfoBuf.entries) := by
  constructor
  · intro h hlen hdangling
    have hlen' : 0 ≤ (cb.shift o).plLen := hlen
    have hdangling' : (run.shift o).tsk.rcvOfoBuf.dangling = false := hdangling
    rw [writeOfoBuffer_eq run hlen hdangling, writeOfoBuffer_eq _ hlen' hdangling'] at h
    have hruns := congrArg (fun run => run.tsk.rcvOfoBuf) (Except.ok.inj h)
    simp only [tsk_finishData, Run.shift_tsk, TcpSock.shift_rcvOfoBuf] at hruns
    have hinsert : (run.tsk.rcvOfoBuf.shift o).insert (cb.ofoBuffer.shift o) =
        (run.tsk.rcvOfoBuf.insert cb.ofoBuffer).shift o := hruns
    exact insertKeeps_of_insert hinsert
  · intro h
    rw [writeOfoBuffer_shift h, map_finishData_shift]

/-- The segment waits in the first run and has been received before in the second. -/
theorem silent_iff {run : Run} {cb : TcpCb} :
    .ok (tcpSendControlPacket (run.shift o) tcpAck) =
        Result.shift o (finishData <$> writeOfoBuffer run cb) ↔ Silent run.tsk cb := by
  constructor
  · intro h
    apply silent_of_sizes run
    rw [← sizes_shift (o := o), ← h, tcpSendControlPacket_shift]
    exact sizes_shift (o := o) (.ok (tcpSendControlPacket run tcpAck))
  · intro h
    rw [finishData_of_silent run h, tcpSendControlPacket_shift]
    rfl

/-- The segment has been received before in the first run and waits in the second. -/
theorem silent_shift_iff {run : Run} {cb : TcpCb} :
    finishData <$> writeOfoBuffer (run.shift o) (cb.shift o) =
        Result.shift o (.ok (tcpSendControlPacket run tcpAck)) ↔
      Silent (run.tsk.shift o) (cb.shift o) := by
  have hctl : Result.shift o (.ok (tcpSendControlPacket run tcpAck)) =
      .ok (tcpSendControlPacket (run.shift o) tcpAck) := by
    rw [tcpSendControlPacket_shift]
    rfl
  rw [hctl]
  constructor
  · intro h
    exact silent_of_sizes (run.shift o) (congrArg sizes h)
  · exact finishData_of_silent (run.shift o)

/-- Handling a segment moves along exactly when its comparisons come out alike. -/
theorem processData_shift_iff (run : Run) (cb : TcpCb) :
    processData (run.shift o) (cb.shift o) = (processData run cb).shift o ↔
      DataKeeps o run cb := by
  unfold processData
  simp only [Run.shift_tsk, TcpSock.shift_rcvNxt, TcpCb.shift_seq, UInt32.add_left_inj]
  by_cases heq : run.tsk.rcvNxt = cb.seq
  · have hkeep : Keeps o.recv run.tsk.rcvNxt cb.seq := .inl heq
    have hnlt : ¬run.tsk.rcvNxt < cb.seq := by
      rw [heq]
      exact UInt32.lt_irrefl _
    rw [if_pos heq, if_pos heq, storeInOrder_shift_iff]
    exact ⟨fun h => ⟨fun _ => h, fun _ hlt => absurd hlt hnlt, fun hne => absurd hkeep hne⟩,
      fun h => h.drain heq⟩
  · rw [if_neg heq, if_neg heq]
    by_cases hkeep : Keeps o.recv run.tsk.rcvNxt cb.seq
    · simp only [hkeep.lt_iff]
      split_ifs with hlt
      · rw [writeOfoBuffer_shift_iff]
        exact ⟨fun h => ⟨fun h' => absurd h' heq, fun _ _ => h, fun hne => absurd hkeep hne⟩,
          fun h => h.insert hkeep hlt⟩
      · refine ⟨fun _ => ⟨fun h' => absurd h' heq, fun _ h' => absurd h' hlt,
          fun hne => absurd hkeep hne⟩, fun _ => ?_⟩
        exact congrArg Except.ok (tcpSendControlPacket_shift o run tcpAck)
    · have hiff := lt_add_iff_not_of_not_keeps hkeep
      by_cases hlt : run.tsk.rcvNxt < cb.seq
      · have hshift : ¬run.tsk.rcvNxt + o.recv < cb.seq + o.recv := fun h' => hiff.mp h' hlt
        rw [if_neg hshift, if_pos hlt, silent_iff]
        constructor
        · intro h
          exact ⟨fun h' => absurd h' heq, fun h' => absurd h' hkeep,
            fun _ => by rwa [if_pos hlt]⟩
        · intro h
          have hsilent := h.order hkeep
          rwa [if_pos hlt] at hsilent
      · rw [if_pos (hiff.mpr hlt), if_neg hlt, silent_shift_iff]
        constructor
        · intro h
          exact ⟨fun h' => absurd h' heq, fun h' => absurd h' hkeep,
            fun _ => by rwa [if_neg hlt]⟩
        · intro h
          have hsilent := h.order hkeep
          rwa [if_neg hlt] at hsilent

theorem DataKeeps.congr {run run' : Run} {cb : TcpCb} (h : DataKeeps o run cb)
    (hsame : SameReceive run run') (hcgt : run'.tsk.cgtState = run.tsk.cgtState) :
    DataKeeps o run' cb := by
  obtain ⟨hside, hreads⟩ := hsame
  simp only [receiveSide, Prod.mk.injEq] at hside
  obtain ⟨hnxt, hofo, hbuf, hread, hsend⟩ := hside
  have hroom : run'.room = run.room := Prod.ext hbuf hreads
  refine ⟨fun heq hdangling a ha => ?_, fun hkeep hlt hlen hdangling => ?_, fun hkeep => ?_⟩
  · rw [hnxt] at heq
    rw [hofo] at hdangling
    obtain ⟨b, hb, hroom'⟩ := storeData_room ha hroom
    rw [hofo]
    exact (h.drain heq hdangling b hb).congr hroom'.symm
  · rw [hnxt] at hkeep hlt
    rw [hofo] at hdangling ⊢
    exact h.insert hkeep hlt hlen hdangling
  · rw [hnxt] at hkeep ⊢
    have horder := h.order hkeep
    simpa only [Silent, TcpSock.shift_rcvOfoBuf, TcpSock.shift_readSleep,
      TcpSock.shift_sendSleep, TcpSock.shift_cgtState, hofo, hread, hsend, hcgt] using horder

theorem processPsh_shift_iff (run : Run) (cb : TcpCb) :
    processPsh (run.shift o) (cb.shift o) = (processPsh run cb).shift o ↔
      DataKeeps o run cb := by
  have hstate : (run.shift o).setState .established = (run.setState .established).shift o := rfl
  unfold processPsh
  simp only [Run.shift_tsk, TcpSock.shift_state, hstate]
  split_ifs with h
  · rw [processData_shift_iff]
    exact ⟨fun h => h.congr ⟨rfl, rfl⟩ rfl, fun h => h.congr ⟨rfl, rfl⟩ rfl⟩
  · exact processData_shift_iff run cb

end Psh

end NetworkLab.Tcp
