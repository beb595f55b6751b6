import NetworkLab.ReferenceCounts

/-!
# Runs that keep the reference counts

The counts stay right over every event, as long as no node is put into a list while it is in
one and no time-wait timer runs out.
-/
namespace NetworkLab.Tcp
open GuardedRuns LinkedLists

section Packets

/-- A connection that was opened from this side has a port in the bind table. -/
def NeedsPort (tsk : TcpSock) : Prop :=
  tsk.hasParent = false ∧ tsk.state ≠ .closed ∧ tsk.state ≠ .listen

variable (tsk : TcpSock) (cb : TcpCb) (newIss : UInt32) (reads : List ℕ)

theorem tcpProcess_hasParent :
    (tcpProcess tsk cb newIss reads).last.tsk.hasParent = tsk.hasParent := by
  obtain ⟨⟨_, _, _, _, hframe⟩, -⟩ := tcpProcess_switched tsk cb newIss reads
  have hentered := (entered_fields tsk cb reads).2.1
  rw [hframe, ← hentered]
  unfold switched afterControl
  split_ifs <;> rfl

theorem needsPort_of_process (h : NeedsPort (tcpProcess tsk cb newIss reads).last.tsk) :
    NeedsPort tsk := by
  obtain ⟨hparent, hclosed, hlisten⟩ := h
  rw [tcpProcess_hasParent] at hparent
  rw [tcpProcess_state] at hclosed hlisten
  refine ⟨hparent, fun hstate => hclosed ?_, fun hstate => hlisten ?_⟩
  · rw [hstate]
    unfold nextState
    split_ifs <;> first | rfl | contradiction
  · rw [hstate]
    unfold nextState
    split_ifs <;> first | rfl | contradiction

/-- What a packet does to the tables. -/
inductive TableMarks (marks : List Action) : Prop
  | inert : (∀ a ∈ marks, ∀ (s : Tables) (i : ℕ), s.perform i a = some s) → TableMarks marks
  | child (csk : TcpSock) : marks = [.spawnChild csk] → csk.hasParent = true → TableMarks marks
  | timer : marks = [.setTimewaitTimer] → SetsTimer tsk.state cb.flags → TableMarks marks
  | unhash : marks = [.unhash] → TableMarks marks
  | unhashBoth : marks = [.bindUnhash, .unhash] → NeedsPort tsk →
      (tcpProcess tsk cb newIss reads).last.tsk.state = .closed → TableMarks marks

theorem tableMarks_of_ack (hack : (seen tsk cb reads).flags = tcpAck) :
    TableMarks tsk cb newIss reads (ackMarks (updateRcvNxt tsk cb)) := by
  obtain ⟨hstate, hparent⟩ := updateRcvNxt_state tsk cb
  unfold ackMarks
  rw [hstate, hparent]
  cases hs : tsk.state with
  | synRecv =>
    refine .inert fun a ha s i => ?_
    rcases List.mem_cons.mp ha with rfl | ha
    · rfl
    · rw [List.mem_singleton.mp ha]
      rfl
  | lastAck =>
    cases hp : tsk.hasParent with
    | true => exact .unhash rfl
    | false =>
      refine .unhashBoth rfl ⟨hp, by rw [hs]; decide, by rw [hs]; decide⟩ ?_
      rw [tcpProcess_state, hs, hack]
      rfl
  | closed | listen | synSent | established | closeWait | finWait1 | finWait2 | closing |
      timeWait => exact .inert fun _ ha => absurd ha List.not_mem_nil

theorem tableMarks :
    TableMarks tsk cb newIss reads (tcpProcess tsk cb newIss reads).last.marks := by
  have hstate := (updateRcvNxt_state tsk cb).1
  rw [tcpProcess_marks]
  unfold switchMarks
  rw [hstate]
  split_ifs with hsyn hlisten hsynack hsent hack hackfin hwait1 hfin hwait
  · refine .child _ rfl ?_
    unfold afterControl
    split_ifs <;> rfl
  · exact .inert fun _ ha => absurd ha List.not_mem_nil
  · refine .inert fun a ha s i => ?_
    rw [List.mem_singleton.mp ha]
    rfl
  · exact .inert fun _ ha => absurd ha List.not_mem_nil
  · exact tableMarks_of_ack tsk cb newIss reads hack
  · exact .timer rfl (.inl ⟨flags_of_seen hackfin (by decide), hwait1⟩)
  · exact .inert fun _ ha => absurd ha List.not_mem_nil
  · exact .timer rfl (.inr ⟨flags_of_seen hfin (by decide), hwait⟩)
  · exact .inert fun _ ha => absurd ha List.not_mem_nil
  · exact .inert fun _ ha => absurd ha List.not_mem_nil

end Packets

section Invariant

/-- Every connection that was opened from this side is in the bind table. -/
def Bound (tsks : List TcpSock) (L : ListName → List ListNode) : Prop :=
  ∀ (i : ℕ) (tsk : TcpSock), tsks[i]? = some tsk → NeedsPort tsk → Listed L (.bindHashList i)

/-- The books balance for some contents of the lists. -/
def Balanced (s : Tables) : Prop := ∃ L, Books 0 s L ∧ Bound s.tsks L

variable {s t : Tables} {L L' : ListName → List ListNode} {i : ℕ} {e : SockEntry} {tsk : TcpSock}

theorem Bound.mono {tsks : List TcpSock} (h : Bound tsks L) (hl : ∀ y, Listed L y → Listed L' y) :
    Bound tsks L' := fun i tsk ht hneeds => hl _ (h i tsk ht hneeds)

/-- One socket is changed, which then needs a port only if it has one. -/
theorem Bound.set (h : Bound s.tsks L) {tsks : List TcpSock} (htsks : tsks = s.tsks.set i tsk)
    (hneeds : NeedsPort tsk → Listed L (.bindHashList i)) : Bound tsks L := by
  intro j tsk' hj hneeds'
  rw [htsks, List.getElem?_set] at hj
  split_ifs at hj with hij
  · cases hj
    exact hij ▸ hneeds hneeds'
  · exact h j tsk' hj hneeds'

theorem tsks_set_tsk (s : Tables) (i : ℕ) (e' : SockEntry) :
    (s.set i e').tsks = s.tsks.set i e'.tsk := List.map_set

theorem tsks_getElem? (hget : s.get i = some e) : s.tsks[i]? = some e.tsk := by
  rw [Tables.tsks, List.getElem?_map, (get_eq_some.mp hget).1]
  rfl

/-- A change of a socket that gives it no new need of a port. -/
theorem Balanced.setTsk (h : Balanced s) (hget : s.get i = some e)
    (hneeds : NeedsPort tsk → NeedsPort e.tsk) : Balanced (s.set i { e with tsk := tsk }) := by
  obtain ⟨L, hbooks, hbound⟩ := h
  obtain ⟨he, hlive⟩ := get_eq_some.mp hget
  refine ⟨L, hbooks.set { e with tsk := tsk } he rfl hlive, ?_⟩
  exact hbound.set (tsks_set_tsk s i _) fun hn => hbound i e.tsk (tsks_getElem? hget) (hneeds hn)

theorem Balanced.tcpHash (h : Balanced s) (hnew : ¬Linked s.links ListNode.head (.hashList i))
    (ht : s.tcpHash i = some t) : Balanced t := by
  obtain ⟨L, hbooks, hbound⟩ := h
  rw [hbooks.lists.linked_iff] at hnew
  obtain ⟨htsks, L', hL', hmono⟩ := hbooks.tcpHash hnew ht
  exact ⟨L', hL', by rw [htsks]; exact hbound.mono hmono⟩

theorem Balanced.alloc (h : Balanced s) (hneeds : ¬NeedsPort tsk) (ht : s.alloc tsk = some t) :
    Balanced t ∧ ¬Linked t.links ListNode.head (.hashList s.socks.length) := by
  obtain ⟨L, hbooks, hbound⟩ := h
  obtain ⟨htsks, L', hL', hlisted⟩ := hbooks.alloc ht
  refine ⟨⟨L', hL', fun j tsk' hj hn => ?_⟩, ?_⟩
  · rw [htsks, List.getElem?_append] at hj
    split_ifs at hj with hlt
    · exact (hlisted _).mpr (.inr (hbound j tsk' hj hn))
    · have hmem := List.mem_of_getElem? hj
      rw [List.mem_singleton.mp hmem] at hn
      exact absurd hn hneeds
  · rw [hL'.lists.linked_iff, hlisted]
    rintro (heq | hold)
    · cases heq
    · exact hbooks.not_listed_new (by simp [nodesOf]) hold

theorem foldlM_inert {marks : List Action}
    (h : ∀ a ∈ marks, ∀ (s : Tables) (i : ℕ), s.perform i a = some s) (s : Tables) (i : ℕ) :
    marks.foldlM (fun t a => t.perform i a) s = some s := by
  induction marks generalizing s with
  | nil => rfl
  | cons a marks ih =>
    rw [List.foldlM_cons, h a List.mem_cons_self]
    exact ih (fun b hb => h b (List.mem_cons_of_mem a hb)) s

/-- A packet for a socket that is in one of the tables. -/
theorem Balanced.packet (h : Balanced s) (hget : s.get i = some e)
    (hlinked : Linked s.links ListNode.head (.hashList i)) (cb : TcpCb) (newIss : UInt32)
    (reads : List ℕ)
    (htimer : SetsTimer e.tsk.state cb.flags → ¬Linked s.links ListNode.head (.timewait i))
    (ht : (tcpProcess e.tsk cb newIss reads).last.marks.foldlM (fun t a => t.perform i a)
      (s.set i { e with tsk := (tcpProcess e.tsk cb newIss reads).last.tsk }) = some t) :
    Balanced t := by
  have hset : Balanced (s.set i { e with tsk := (tcpProcess e.tsk cb newIss reads).last.tsk }) :=
    h.setTsk hget (needsPort_of_process e.tsk cb newIss reads)
  obtain ⟨he, hlive⟩ := get_eq_some.mp hget
  cases tableMarks e.tsk cb newIss reads with
  | inert hinert =>
    rw [foldlM_inert hinert] at ht
    cases ht
    exact hset
  | child csk hmarks hparent =>
    rw [hmarks, List.foldlM_cons] at ht
    obtain ⟨u, hu, hrest⟩ := Option.bind_eq_some_iff.mp ht
    cases hrest
    obtain ⟨v, hv, hhash⟩ := Option.bind_eq_some_iff.mp hu
    obtain ⟨hv', hfresh⟩ := hset.alloc (fun hn => by rw [hn.1] at hparent; cases hparent) hv
    exact hv'.tcpHash hfresh hhash
  | timer hmarks hsets =>
    rw [hmarks, List.foldlM_cons] at ht
    obtain ⟨u, hu, hrest⟩ := Option.bind_eq_some_iff.mp ht
    cases hrest
    obtain ⟨L, hbooks, hbound⟩ := hset
    have hnew := hbooks.lists.linked_iff.not.mp (htimer hsets)
    obtain ⟨htsks, L', hL', hmono⟩ := hbooks.tcpSetTimewaitTimer hnew hu
    exact ⟨L', hL', by rw [htsks]; exact hbound.mono hmono⟩
  | unhash hmarks =>
    rw [hmarks, List.foldlM_cons] at ht
    obtain ⟨u, hu, hrest⟩ := Option.bind_eq_some_iff.mp ht
    cases hrest
    obtain ⟨L, hbooks, hbound⟩ := hset
    obtain ⟨htsks, L', hL', hlisted⟩ :=
      hbooks.tcpUnhash (hbooks.lists.linked_iff.mp hlinked) hu
    refine ⟨L', hL', fun j tsk' hj hn => (hlisted (.bindHashList j) nofun).mpr ?_⟩
    rw [htsks] at hj
    exact hbound j tsk' hj hn
  | unhashBoth hmarks hneeds hclosed =>
    rw [hmarks, List.foldlM_cons] at ht
    obtain ⟨u, hu, hrest⟩ := Option.bind_eq_some_iff.mp ht
    rw [List.foldlM_cons] at hrest
    obtain ⟨v, hv, hdone⟩ := Option.bind_eq_some_iff.mp hrest
    cases hdone
    obtain ⟨L, hbooks, hbound⟩ := h
    have hbooks' := hbooks.set { e with tsk := (tcpProcess e.tsk cb newIss reads).last.tsk } he rfl
      hlive
    obtain ⟨htsks, L₁, hL₁, hlisted₁⟩ :=
      hbooks'.tcpBindUnhash (hbound i e.tsk (tsks_getElem? hget) hneeds) hu
    have hhash : Listed L₁ (.hashList i) :=
      (hlisted₁ (.hashList i) nofun).mpr (hbooks.lists.linked_iff.mp hlinked)
    obtain ⟨htsks', L₂, hL₂, hlisted₂⟩ := hL₁.tcpUnhash hhash hv
    refine ⟨L₂, hL₂, fun j tsk' hj hn => (hlisted₂ (.bindHashList j) nofun).mpr ?_⟩
    rw [htsks', htsks, tsks_set_tsk, List.getElem?_set] at hj
    split_ifs at hj with hij
    · cases hj
      exact absurd hclosed hn.2.1
    · exact (hlisted₁ _ fun heq => hij (ListNode.bindHashList.inj heq).symm).mpr
        (hbound j tsk' hj hn)

theorem needsPort_of_same {tsk' : TcpSock} (hstate : tsk'.state = tsk.state)
    (hparent : tsk'.hasParent = tsk.hasParent) (h : NeedsPort tsk') : NeedsPort tsk := by
  unfold NeedsPort at h
  rw [hstate, hparent] at h
  exact h

/-- One timer of the list, which is not a time-wait timer that runs out. -/
theorem fire_books (h : Books owed s L) (hbound : Bound s.tsks L) {x : ListNode}
    (htimer : ∀ i e, x = .timewait i → s.socks[i]? = some e → tcpTimerScanInterval < e.timeout)
    (ht : s.fire x = some t) :
    Books owed t L ∧ Bound t.tsks L ∧ t.links = s.links ∧
      ∀ j, x ≠ .timewait j → ∀ e, t.socks[j]? = some e →
        ∃ e', s.socks[j]? = some e' ∧ e'.timeout = e.timeout := by
  have hkeep {i : ℕ} {e e' : SockEntry} (hget : s.get i = some e) (hcnt : e'.refCnt = e.refCnt)
      (hlive : e'.freed = e.freed) (hstate : e'.tsk.state = e.tsk.state)
      (hparent : e'.tsk.hasParent = e.tsk.hasParent)
      (hx : x = .timewait i ∨ e'.timeout = e.timeout) :
      Books owed (s.set i e') L ∧ Bound (s.set i e').tsks L ∧ (s.set i e').links = s.links ∧
        ∀ j, x ≠ .timewait j → ∀ e₁, (s.set i e').socks[j]? = some e₁ →
          ∃ e₂, s.socks[j]? = some e₂ ∧ e₂.timeout = e₁.timeout := by
    obtain ⟨he, hfreed⟩ := get_eq_some.mp hget
    refine ⟨h.set e' he hcnt (hlive.trans hfreed), hbound.set (tsks_set_tsk s i e') fun hn =>
      hbound i e.tsk (tsks_getElem? hget) (needsPort_of_same hstate hparent hn), rfl,
      fun j hne e₁ hj => ?_⟩
    simp only [Tables.set, List.getElem?_set] at hj
    split_ifs at hj with hij
    · cases hj
      subst hij
      exact ⟨e, he, (hx.resolve_left hne).symm⟩
    · exact ⟨e₁, hj, rfl⟩
  cases x with
  | timewait i =>
    obtain ⟨e, hget, hsome⟩ := Option.bind_eq_some_iff.mp ht
    have hlate := htimer i e rfl (get_eq_some.mp hget).1
    have hrun : ¬e.timeout - tcpTimerScanInterval ≤ 0 := by omega
    simp only [if_neg hrun, Option.some.injEq] at hsome
    subst hsome
    exact hkeep hget rfl rfl rfl rfl (.inl rfl)
  | retransTimer i =>
    obtain ⟨e, hget, hsome⟩ := Option.bind_eq_some_iff.mp ht
    cases hsome
    obtain ⟨hstate, hparent⟩ := scanEntries_state e.tsk e.tsk.sendBuf
    exact hkeep hget rfl rfl hstate hparent (.inr rfl)
  | head | hashList | bindHashList => cases ht

/-- The loop over the timers that are left. -/
theorem scanFrom_balanced (done rest : List ListNode) (hL : L .timer = done ++ rest) (fuel : ℕ)
    (h : Books 0 s L) (hbound : Bound s.tsks L)
    (htimer : ∀ i e, .timewait i ∈ rest → s.socks[i]? = some e → tcpTimerScanInterval < e.timeout)
    {x : ListNode} (hx : x ∈ (rest ++ [ListNode.head .timer]).head?)
    (ht : Tables.scanFrom fuel s x = some t) : Balanced t := by
  induction rest generalizing done fuel s x with
  | nil =>
    obtain rfl : ListNode.head .timer = x := Option.some.inj hx
    have hsame : s = t := by
      cases fuel with
      | zero => simpa [Tables.scanFrom] using ht
      | succ fuel => simpa [Tables.scanFrom] using ht
    exact hsame ▸ ⟨L, h, hbound⟩
  | cons y rest ih =>
    obtain rfl : y = x := Option.some.inj hx
    have hring := h.lists.ring .timer
    have hmem : y ∈ L .timer := hL ▸ List.mem_append_right _ List.mem_cons_self
    have hne : y ≠ ListNode.head .timer := fun heq =>
      (List.nodup_cons.mp hring.nodup).1 (heq ▸ hmem)
    cases fuel with
    | zero =>
      simp only [Tables.scanFrom, if_neg hne] at ht
      cases ht
    | succ fuel =>
      simp only [Tables.scanFrom, if_neg hne] at ht
      obtain ⟨next, hnext, hfire⟩ := Option.bind_eq_some_iff.mp ht
      obtain ⟨u, hu, hscan⟩ := Option.bind_eq_some_iff.mp hfire
      rw [hL] at hring
      have hrot : Ring s.links (y :: (rest ++ ListNode.head .timer :: done)) :=
        Ring.rotate (ListNode.head .timer :: done) (y :: rest) hring
      obtain ⟨next', hnext', hfirst⟩ := hrot.next_mem
      obtain rfl : next = next' := Option.some.inj (hnext.symm.trans hnext')
      have hstart : next ∈ (rest ++ [ListNode.head .timer]).head? := by
        cases rest with
        | nil => exact hfirst
        | cons z rest => exact hfirst
      obtain ⟨hbooks, hbound', hlinks, htimeouts⟩ := fire_books h hbound
        (fun i e heq => htimer i e (heq ▸ List.mem_cons_self)) hu
      refine ih (done ++ [y]) (by rw [hL, List.append_assoc]; rfl) fuel hbooks hbound'
        (fun i e hi he => ?_) hstart hscan
      have hother : y ≠ .timewait i := by
        rintro rfl
        have hnodup := (List.nodup_cons.mp (h.lists.ring .timer).nodup).2
        rw [hL, List.nodup_append'] at hnodup
        exact (List.nodup_cons.mp hnodup.2.1).1 hi
      obtain ⟨e', he', heq⟩ := htimeouts i hother e he
      exact heq ▸ htimer i e' (List.mem_cons_of_mem y hi) he'

theorem Balanced.scan (h : Balanced s) (hok : Careful s .scan)
    (ht : s.tcpScanTimerList = some t) : Balanced t := by
  obtain ⟨L, hbooks, hbound⟩ := h
  obtain ⟨next, hnext, hscan⟩ := Option.bind_eq_some_iff.mp ht
  obtain ⟨next', hnext', hfirst⟩ := (hbooks.lists.ring .timer).next_mem
  obtain rfl : next = next' := Option.some.inj (hnext.symm.trans hnext')
  refine scanFrom_balanced [] (L .timer) rfl _ hbooks hbound (fun i e hi he => ?_) hfirst hscan
  exact hok i e he (hbooks.lists.linked_iff.mpr ⟨.timer, hi⟩)

/-- A port is given to a socket that is not in the bind table. -/
theorem Balanced.tcpBindHash (h : Balanced s) (hget : s.get i = some e) (tsk : TcpSock)
    (hnew : ¬Linked s.links ListNode.head (.bindHashList i))
    (ht : (s.set i { e with tsk := tsk }).tcpBindHash i = some t) :
    Balanced t ∧ ∀ y, y ≠ .bindHashList i →
      (Linked t.links ListNode.head y ↔ Linked s.links ListNode.head y) := by
  obtain ⟨L, hbooks, hbound⟩ := h
  obtain ⟨he, hlive⟩ := get_eq_some.mp hget
  rw [hbooks.lists.linked_iff] at hnew
  have hbooks' := hbooks.set { e with tsk := tsk } he rfl hlive
  obtain ⟨htsks, L', hL', hlisted⟩ := hbooks'.tcpBindHash hnew ht
  refine ⟨⟨L', hL', fun j tsk' hj hn => (hlisted _).mpr ?_⟩, fun y hy => ?_⟩
  · rw [htsks, tsks_set_tsk, List.getElem?_set] at hj
    split_ifs at hj with hij
    · exact .inl (by rw [hij])
    · exact .inr (hbound j tsk' hj hn)
  · rw [hL'.lists.linked_iff, hbooks.lists.linked_iff, hlisted]
    exact or_iff_right hy

theorem Balanced.bind (h : Balanced s) {port : UInt16} (hok : Careful s (.bind i port))
    (ht : s.tcpSockBind i port = some t) : Balanced t := by
  obtain ⟨e, hget, hrest⟩ := Option.bind_eq_some_iff.mp ht
  obtain ⟨choice, hchoice, hdone⟩ := Option.bind_eq_some_iff.mp hrest
  cases choice with
  | none =>
    cases hdone
    exact h
  | some sport =>
    have hnew := hok (by rw [hchoice]; nofun)
    exact (h.tcpBindHash hget _ hnew hdone).1

theorem Balanced.listen (h : Balanced s) (hok : Careful s (.listen i))
    (ht : s.tcpSockListen i = some t) : Balanced t := by
  obtain ⟨e, hget, hhash⟩ := Option.bind_eq_some_iff.mp ht
  have hset : Balanced (s.set i { e with tsk := Tcp.tcpSockListen e.tsk }) :=
    h.setTsk hget fun hn => absurd rfl hn.2.2
  exact hset.tcpHash hok hhash

theorem Balanced.connect (h : Balanced s) {sip dip newIss : UInt32} {dport : UInt16}
    (hok : Careful s (.connect i sip dip dport newIss))
    (ht : s.tcpSockConnect i sip dip dport newIss = some t) : Balanced t := by
  obtain ⟨e, hget, hrest⟩ := Option.bind_eq_some_iff.mp ht
  obtain ⟨choice, hchoice, hdone⟩ := Option.bind_eq_some_iff.mp hrest
  cases choice with
  | none =>
    cases hdone
    exact h.setTsk hget (needsPort_of_same rfl rfl)
  | some sport =>
    obtain ⟨hbind, hhash⟩ := hok (by rw [hchoice]; nofun)
    obtain ⟨u, hu, htable⟩ := Option.bind_eq_some_iff.mp hdone
    obtain ⟨hu', hsame⟩ := h.tcpBindHash hget _ hbind hu
    exact hu'.tcpHash ((hsame (.hashList i) nofun).not.mpr hhash) htable

/-- A call of `tcp_sock_close` opens no connection. -/
theorem needsPort_of_close (run : Run) (h : NeedsPort (tcpSockClose run).tsk) :
    NeedsPort run.tsk := by
  unfold tcpSockClose at h
  split at h
  · next hstate => exact ⟨h.1, by rw [hstate]; nofun, by rw [hstate]; nofun⟩
  · next hstate => exact ⟨h.1, by rw [hstate]; nofun, by rw [hstate]; nofun⟩
  · exact h

theorem Balanced.step (h : Balanced s) {ev : TableEvent} (hok : Careful s ev)
    (ht : s.step ev = some t) : Balanced t := by
  cases ev with
  | alloc => exact (h.alloc (fun hn => hn.2.1 rfl) ht).1
  | bind i port => exact h.bind hok ht
  | listen i => exact h.listen hok ht
  | connect i sip dip dport newIss => exact h.connect hok ht
  | woken i =>
    obtain ⟨e, hget, hset⟩ := Option.bind_eq_some_iff.mp ht
    split_ifs at hset with hstate
    cases hset
    exact h.setTsk hget fun hn => ⟨hn.1, by rw [hstate]; nofun, by rw [hstate]; nofun⟩
  | packet cb newIss reads =>
    obtain ⟨found, hlookup, hrest⟩ := Option.bind_eq_some_iff.mp ht
    cases found with
    | none =>
      cases hrest
      exact h
    | some i =>
      obtain ⟨e, hget, hmarks⟩ := Option.bind_eq_some_iff.mp hrest
      exact h.packet hget (lookup_linked hlookup) cb newIss reads
        (hok i e hlookup (get_eq_some.mp hget).1) hmarks
  | close i =>
    obtain ⟨e, hget, hset⟩ := Option.bind_eq_some_iff.mp ht
    cases hset
    exact h.setTsk hget (needsPort_of_close _)
  | scan => exact h.scan hok ht
  | change i tsk =>
    obtain ⟨e, hget, hset⟩ := Option.bind_eq_some_iff.mp ht
    split_ifs at hset with hsame
    cases hset
    exact h.setTsk hget (needsPort_of_same hsame.1 hsame.2.1)

theorem balanced_init : Balanced initTcpStack :=
  ⟨_, books_init, fun i tsk ht => absurd ht (by simp [Tables.tsks, initTcpStack])⟩

theorem balanced_of_reaches (h : Reaches Tables.step Careful (· = initTcpStack) s) : Balanced s :=
  h.invariant Balanced (fun _ hinit => hinit ▸ balanced_init) fun _ _ _ hs hok hstep =>
    hs.step hok hstep

end Invariant

section Client

variable {s : Tables}

theorem Balanced.not_linked_new (h : Balanced s) {x : ListNode} (hnull : s.links.next x = none) :
    ¬Linked s.links ListNode.head x := by
  obtain ⟨L, hbooks, -⟩ := h
  rw [hbooks.lists.linked_iff]
  exact fun hx => hbooks.lists.next_ne_none hx hnull

/-- The state after an event, if it can happen. -/
def Tables.after (s : Tables) (ev : TableEvent) : Tables := (s.step ev).getD s

theorem reaches_after {ok : Tables → TableEvent → Prop}
    (h : Reaches Tables.step ok (· = initTcpStack) s) (ev : TableEvent) (hok : ok s ev)
    (hstep : (s.step ev).isSome) : Reaches Tables.step ok (· = initTcpStack) (s.after ev) := by
  obtain ⟨u, hu⟩ := Option.isSome_iff_exists.mp hstep
  have hafter : s.after ev = u := by
    rw [Tables.after, hu]
    rfl
  exact .next h hok (hafter ▸ hu)

/-- A client that is connected and closes its end. -/
def clientAllocated : Tables := initTcpStack.after .alloc

def clientConnecting : Tables := clientAllocated.after (.connect 0 1 2 80 100)

def clientConnected : Tables :=
  (clientConnecting.after
    (.packet ⟨2, 1, 80, 12345, 500, 501, 101, 8192, tcpSyn ||| tcpAck, [], 0⟩ 0 [])).after
    (.woken 0)

def clientClosing : Tables := clientConnected.after (.close 0)

/-- The other end closes too. -/
def clientWaiting : Tables :=
  clientClosing.after
    (.packet ⟨2, 1, 80, 12345, 501, 502, 102, 8192, tcpAck ||| tcpFin, [], 0⟩ 0 [])

theorem reaches_clientConnected :
    Reaches Tables.step Careful (· = initTcpStack) clientConnected := by
  have halloc : Reaches Tables.step Careful (· = initTcpStack) clientAllocated :=
    reaches_after (.start rfl) .alloc trivial (by decide +kernel)
  have hnew := balanced_of_reaches halloc
  have hconnect := reaches_after halloc (.connect 0 1 2 80 100)
    (fun _ => ⟨hnew.not_linked_new (by decide +kernel), hnew.not_linked_new (by decide +kernel)⟩)
    (by decide +kernel)
  have hsynack := reaches_after hconnect
    (.packet ⟨2, 1, 80, 12345, 500, 501, 101, 8192, tcpSyn ||| tcpAck, [], 0⟩ 0 [])
    (fun i e hlookup he hsets => by
      rcases hsets with ⟨hflags, -⟩ | ⟨hflags, -⟩
      · exact absurd hflags (by decide)
      · exact absurd hflags (by decide)) (by decide +kernel)
  exact reaches_after hsynack (.woken 0) trivial (by decide +kernel)

/-- A packet that sets a timer may come while the timer of its socket is in no list. -/
theorem reaches_after_packet (h : Reaches Tables.step Careful (· = initTcpStack) s) (cb : TcpCb)
    {i : ℕ} (hfound : s.lookup cb = some (some i)) (hnull : s.links.next (.timewait i) = none)
    (hstep : (s.step (.packet cb 0 [])).isSome) :
    Reaches Tables.step Careful (· = initTcpStack) (s.after (.packet cb 0 [])) := by
  refine reaches_after h _ (fun j e hlookup he hsets => ?_) hstep
  obtain rfl : i = j := Option.some.inj (Option.some.inj (hfound.symm.trans hlookup))
  exact (balanced_of_reaches h).not_linked_new hnull

theorem reaches_clientWaiting : Reaches Tables.step Careful (· = initTcpStack) clientWaiting :=
  reaches_after_packet
    (reaches_after reaches_clientConnected (.close 0) trivial (by decide +kernel)) _
    (by decide +kernel : clientClosing.lookup _ = some (some 0)) (by decide +kernel)
    (by decide +kernel)

/-- Over every careful run the counts are those of the tables and of the timer list. -/
theorem references_counted (h : Reaches Tables.step Careful (· = initTcpStack) s) :
    Referenced s := by
  obtain ⟨L, hbooks, -⟩ := balanced_of_reaches h
  exact hbooks.referenced

/-- The other end closes first, and acknowledges the FIN of the client. -/
def clientLeaving : Tables :=
  clientConnected.after (.packet ⟨2, 1, 80, 12345, 501, 502, 101, 8192, tcpFin, [], 0⟩ 0 [])

def lastAck : TcpCb := ⟨2, 1, 80, 12345, 502, 502, 102, 8192, tcpAck, [], 0⟩

def clientGone : Tables := clientLeaving.after (.packet lastAck 0 [])

/-- The ACK takes the socket out of the tables, and its timers keep it. -/
theorem references_counted_clientGone : Referenced clientGone ∧
    clientLeaving.lookup lastAck = some (some 0) ∧ clientGone.lookup lastAck = some none ∧
      clientGone.socks.map SockEntry.refCnt = [2] := by
  have hleaving : Reaches Tables.step Careful (· = initTcpStack) clientLeaving :=
    reaches_after_packet reaches_clientConnected _
      (by decide +kernel : clientConnected.lookup _ = some (some 0)) (by decide +kernel)
      (by decide +kernel)
  have hgone : Reaches Tables.step Careful (· = initTcpStack) clientGone := by
    refine reaches_after hleaving _ (fun i e hlookup he hsets => ?_) (by decide +kernel)
    rcases hsets with ⟨hflags, -⟩ | ⟨hflags, -⟩
    · exact absurd hflags (by decide)
    · exact absurd hflags (by decide)
  exact ⟨references_counted hgone, by decide +kernel, by decide +kernel, by decide +kernel⟩

end Client

section Expiry

variable {s t : Tables} {L : ListName → List ListNode} {i : ℕ} {e : SockEntry}

/-- A time-wait timer that runs out is taken from the list, and its reference is kept. -/
theorem Books.fire_expired (h : Books 0 s L) (hbound : Bound s.tsks L) (he : s.socks[i]? = some e)
    (hneeds : e.tsk.hasParent = false → NeedsPort e.tsk) (hrun : e.timeout ≤ tcpTimerScanInterval)
    (htimer : Listed L (.timewait i)) (hhash : Listed L (.hashList i))
    (ht : s.fire (.timewait i) = some t) : ¬Referenced t := by
  have hlive := h.live e (List.mem_of_getElem? he)
  have hi : i < s.tsks.length := by
    rw [Tables.tsks, List.length_map]
    exact (List.getElem?_eq_some_iff.mp he).1
  obtain ⟨e₀, hget, hrest⟩ := Option.bind_eq_some_iff.mp ht
  obtain rfl : e = e₀ := Option.some.inj (he.symm.trans (get_eq_some.mp hget).1)
  have hover : e.timeout - tcpTimerScanInterval ≤ 0 := by omega
  simp only [if_pos hover] at hrest
  obtain ⟨u, hu, hafter⟩ := Option.bind_eq_some_iff.mp hrest
  have hset := h.set { e with timeout := e.timeout - tcpTimerScanInterval } he rfl hlive
  have hown : .timewait i ∈ nodesOf i := by simp [nodesOf]
  obtain ⟨hsocks, L₁, hL₁, hl₁⟩ := hset.unlink htimer hown (by simp) hu
  have hu' : u.socks[i]? = some { e with timeout := e.timeout - tcpTimerScanInterval } := by
    rw [hsocks]
    exact List.getElem?_set_self (List.getElem?_eq_some_iff.mp he).1
  have hlen : u.tsks.length = s.tsks.length := by
    rw [Tables.tsks, hsocks]
    simp [Tables.set, Tables.tsks]
  have hclosed := hL₁.set { e with
    tsk.state := .closed, timeout := e.timeout - tcpTimerScanInterval } hu' rfl hlive
  have hlen' : (u.set i { e with
      tsk.state := .closed, timeout := e.timeout - tcpTimerScanInterval }).tsks.length =
      s.tsks.length := by
    rw [tsks_set_tsk, List.length_set, hlen]
  -- The reference of the timer stays owed while the socket leaves its tables.
  have howed : (0 + Pi.single i 1 : ℕ → ℕ) i ≠ 0 := by simp
  have hhash₁ := (hl₁ (.hashList i)).mpr ⟨by simp, hhash⟩
  split_ifs at hafter with hparent
  · obtain ⟨htsks, L₂, hL₂, -⟩ := hclosed.tcpUnhash hhash₁ hafter
    exact hL₂.not_referenced (by rw [htsks, hlen']; exact hi) howed
  · have hparent' : e.tsk.hasParent = false := by simpa using hparent
    have hbind := hbound i e.tsk (tsks_getElem? hget) (hneeds hparent')
    obtain ⟨v, hv, hunhash⟩ := Option.bind_eq_some_iff.mp hafter
    obtain ⟨htsks, L₂, hL₂, hl₂⟩ :=
      hclosed.tcpBindUnhash ((hl₁ (.bindHashList i)).mpr ⟨by simp, hbind⟩) hv
    obtain ⟨htsks', L₃, hL₃, -⟩ :=
      hL₂.tcpUnhash ((hl₂ (.hashList i) (by simp)).mpr hhash₁) hunhash
    exact hL₃.not_referenced (by rw [htsks', htsks, hlen']; exact hi) howed

/-- The client after some of the time has passed. -/
def clientWaitingFor (timeout : ℤ) : Tables :=
  { clientWaiting with socks := clientWaiting.socks.map fun e => { e with timeout := timeout } }

theorem clientWaitingFor_start : clientWaitingFor Tables.tcpTimewaitTimeout = clientWaiting := by
  have htimeout : ∀ e ∈ clientWaiting.socks, e.timeout = Tables.tcpTimewaitTimeout := by
    decide +kernel
  have hsocks : (clientWaiting.socks.map fun e =>
      { e with timeout := Tables.tcpTimewaitTimeout }) = clientWaiting.socks :=
    (List.map_congr_left fun e he => by rw [← htimeout e he]; rfl).trans (List.map_id _)
  rw [clientWaitingFor, hsocks]

theorem clientWaiting_links :
    clientWaiting.links.next (.head .timer) = some (.retransTimer 0) ∧
      clientWaiting.links.next (.retransTimer 0) = some (.timewait 0) ∧
      clientWaiting.links.next (.timewait 0) = some (.head .timer) := by
  decide +kernel

theorem tcpScanRetrans_idle {tsk : TcpSock} (h : tsk.sendBuf = []) : tcpScanRetrans tsk = tsk := by
  cases tsk
  dsimp only at h
  subst h
  rfl

theorem clientWaiting_sock : ∃ e, clientWaiting.socks = [e] ∧ e.freed = false ∧
    e.tsk.state = .timeWait ∧ tcpScanRetrans e.tsk = e.tsk := by
  have hlen : clientWaiting.socks.length = 1 := by decide +kernel
  have hidle : ∀ e ∈ clientWaiting.socks,
      e.freed = false ∧ e.tsk.state = .timeWait ∧ e.tsk.sendBuf.length = 0 := by
    decide +kernel
  obtain ⟨e, he⟩ := List.length_eq_one_iff.mp hlen
  obtain ⟨hfreed, hstate, hbuf⟩ := hidle e (he ▸ List.mem_singleton_self e)
  exact ⟨e, he, hfreed, hstate, tcpScanRetrans_idle (List.length_eq_zero_iff.mp hbuf)⟩

theorem clientWaitingFor_get : ∃ e : SockEntry, e.tsk.state = .timeWait ∧
    tcpScanRetrans e.tsk = e.tsk ∧ ∀ timeout,
      (clientWaitingFor timeout).get 0 = some { e with timeout := timeout } ∧
      ∀ timeout', (clientWaitingFor timeout).set 0 { e with timeout := timeout' } =
        clientWaitingFor timeout' := by
  obtain ⟨e, he, hfreed, hstate, hidle⟩ := clientWaiting_sock
  refine ⟨e, hstate, hidle, fun timeout => ⟨?_, fun timeout' => ?_⟩⟩
  · rw [get_eq_some, clientWaitingFor, he]
    exact ⟨rfl, hfreed⟩
  · rw [clientWaitingFor, clientWaitingFor, he]
    rfl

theorem fire_retrans_clientWaitingFor (timeout : ℤ) :
    (clientWaitingFor timeout).fire (.retransTimer 0) = some (clientWaitingFor timeout) := by
  obtain ⟨e, -, hidle, hentry⟩ := clientWaitingFor_get
  obtain ⟨hget, hset⟩ := hentry timeout
  rw [Tables.fire, hget, Option.bind_eq_bind, Option.bind_some, hidle]
  exact congrArg some (hset timeout)

theorem fire_timewait_clientWaitingFor {timeout : ℤ} (hlate : tcpTimerScanInterval < timeout) :
    (clientWaitingFor timeout).fire (.timewait 0) =
      some (clientWaitingFor (timeout - tcpTimerScanInterval)) := by
  obtain ⟨e, -, -, hentry⟩ := clientWaitingFor_get
  obtain ⟨hget, hset⟩ := hentry timeout
  have hrun : ¬timeout - tcpTimerScanInterval ≤ 0 := by omega
  rw [Tables.fire, hget, Option.bind_eq_bind, Option.bind_some]
  simp only [if_neg hrun]
  exact congrArg some (hset _)

/-- A round of the timers fires the retransmission timer and then the time-wait timer. -/
theorem scan_clientWaitingFor (timeout : ℤ) :
    (clientWaitingFor timeout).step .scan = (clientWaitingFor timeout).fire (.timewait 0) := by
  obtain ⟨hfirst, hsecond, hend⟩ := clientWaiting_links
  have hlen : (clientWaitingFor timeout).socks.length = 1 := by
    obtain ⟨e, he, -⟩ := clientWaiting_sock
    rw [clientWaitingFor, he]
    rfl
  have hlinks : (clientWaitingFor timeout).links = clientWaiting.links := rfl
  rw [Tables.step, Tables.tcpScanTimerList, hlen, hlinks, hfirst, Option.bind_some]
  rw [Tables.scanFrom, if_neg nofun, hlinks, hsecond, Option.bind_some,
    fire_retrans_clientWaitingFor, Option.bind_some]
  rw [Tables.scanFrom, if_neg nofun, hlinks, hend, Option.bind_some]
  cases (clientWaitingFor timeout).fire (.timewait 0) with
  | none => rfl
  | some t => rfl

theorem reaches_clientWaitingFor (n : ℕ) (h : n < 200) :
    Reaches Tables.step Careful (· = initTcpStack)
      (clientWaitingFor (Tables.tcpTimewaitTimeout - n * tcpTimerScanInterval)) := by
  induction n with
  | zero =>
    rw [Nat.cast_zero, zero_mul, sub_zero, clientWaitingFor_start]
    exact reaches_clientWaiting
  | succ n ih =>
    have hlate : tcpTimerScanInterval <
        Tables.tcpTimewaitTimeout - n * tcpTimerScanInterval := by
      unfold Tables.tcpTimewaitTimeout tcpTimerScanInterval
      omega
    have hstep := (scan_clientWaitingFor _).trans (fire_timewait_clientWaitingFor hlate)
    have hnext : Tables.tcpTimewaitTimeout - ((n + 1 : ℕ) : ℤ) * tcpTimerScanInterval =
        Tables.tcpTimewaitTimeout - n * tcpTimerScanInterval - tcpTimerScanInterval := by
      push_cast
      ring
    have hok : Careful (clientWaitingFor
        (Tables.tcpTimewaitTimeout - n * tcpTimerScanInterval)) .scan := fun i e he _ => by
      obtain ⟨e₀, -, rfl⟩ := List.mem_map.mp (List.mem_of_getElem? he)
      exact hlate
    rw [hnext]
    exact (ih (by omega)).next hok hstep

/-- The timer of the client runs out, and its reference stays. -/
theorem timewait_expiry_miscounts :
    ∃ s, Reaches Tables.step anyStep (· = initTcpStack) s ∧ ¬Referenced s := by
  have hreach := reaches_clientWaitingFor 199 (by norm_num)
  obtain ⟨L, hbooks, hbound⟩ := balanced_of_reaches hreach
  obtain ⟨e, hstate, -, hentry⟩ := clientWaitingFor_get
  obtain ⟨hfirst, hsecond, -⟩ := clientWaiting_links
  have htimer : Listed L (.timewait 0) :=
    hbooks.lists.linked_iff.mp ⟨.timer, nofun, .tail (.single hfirst) hsecond⟩
  have hbucket : clientWaiting.links.next
      (.head (.established (tcpHashFunction 1 2 12345 80))) = some (.hashList 0) := by
    decide +kernel
  have hhash : Listed L (.hashList 0) :=
    hbooks.lists.linked_iff.mp ⟨.established (tcpHashFunction 1 2 12345 80), nofun, .single hbucket⟩
  have hlast : Tables.tcpTimewaitTimeout - ((199 : ℕ) : ℤ) * tcpTimerScanInterval =
      tcpTimerScanInterval := by
    decide
  rw [hlast] at hreach hbooks hbound
  have hfire : ((clientWaitingFor tcpTimerScanInterval).fire (.timewait 0)).isSome := by
    decide +kernel
  obtain ⟨s, hs⟩ := Option.isSome_iff_exists.mp hfire
  have hany : Reaches Tables.step anyStep (· = initTcpStack)
      (clientWaitingFor tcpTimerScanInterval) := hreach.weaken fun _ _ _ => trivial
  refine ⟨s, hany.next trivial ((scan_clientWaitingFor _).trans hs), ?_⟩
  have hneeds (hparent : e.tsk.hasParent = false) : NeedsPort e.tsk :=
    ⟨hparent, by rw [hstate]; nofun, by rw [hstate]; nofun⟩
  exact hbooks.fire_expired hbound (get_eq_some.mp (hentry _).1).1 hneeds le_rfl htimer hhash hs

end Expiry

end NetworkLab.Tcp
