import NetworkLab.HandshakeProgress
import NetworkLab.ListenerHistory

/-!
# The accept queue of a listening socket

A child waits in `listen_queue` until its handshake is complete and in `accept_queue`
until the application takes it. Packets are dispatched by their four addresses and
ports, as `tcp_sock_lookup` does.
-/
namespace NetworkLab.Tcp
open GuardedRuns

section Server

/-- A child and whether it is in the established table. -/
structure Child where
  tsk : TcpSock
  hashed : Bool

/-- A listening socket, its children in the order of their creation, and its queues,
which hold positions among the children. `accepted` are the children returned by
`tcp_sock_accept` and `reached` those that have been `ESTABLISHED`. -/
structure Server where
  listener : TcpSock
  backlog : ℤ
  children : List Child
  listenQueue : List ℕ
  acceptQueue : List ℕ
  acceptBacklog : ℤ
  accepted : List ℕ
  reached : List ℕ

inductive ServerEvent
  | packet (cb : TcpCb) (newIss : UInt32) (reads : List ℕ)
  | accept
  | close (i : ℕ)
  | timewaitOver (i : ℕ)
  | change (i : ℕ) (tsk : TcpSock)

/-- The tuple of the socket is that of the packet. -/
def SameTuple (tsk : TcpSock) (cb : TcpCb) : Prop :=
  cb.daddr = tsk.skSip ∧ cb.saddr = tsk.skDip ∧ cb.dport = tsk.skSport ∧ cb.sport = tsk.skDport

instance (tsk : TcpSock) (cb : TcpCb) : Decidable (SameTuple tsk cb) :=
  inferInstanceAs (Decidable (_ ∧ _))

/-- `tcp_sock_lookup_established` among the children. -/
def Server.lookup (s : Server) (cb : TcpCb) : Option ℕ :=
  s.children.findIdx? fun c => c.hashed && decide (SameTuple c.tsk cb)

/-- `tcp_sock_accept_enqueue`. -/
def Server.acceptEnqueue (s : Server) (i : ℕ) : Server :=
  { s with
    listenQueue := s.listenQueue.erase i
    acceptQueue := s.acceptQueue.erase i ++ [i]
    acceptBacklog := s.acceptBacklog + 1 }

/-- A child is `ESTABLISHED` from now on or again. -/
def Server.reach (s : Server) (i : ℕ) (state : TcpState) : Server :=
  if state = .established ∧ i ∉ s.reached then { s with reached := s.reached ++ [i] } else s

def Server.setChild (s : Server) (i : ℕ) (c : Child) : Server :=
  { s with children := s.children.set i c }

/-- After a child has processed a packet. -/
def Server.afterChild (s : Server) (i : ℕ) (c : Child) (run : Run) : Server :=
  ((if .acceptEnqueue ∈ run.actions then s.acceptEnqueue i else s).reach i run.tsk.state).setChild i
    ⟨run.tsk, c.hashed && decide (.unhash ∉ run.actions)⟩

/-- After the listening socket has processed a packet. -/
def Server.afterListener (s : Server) (run : Run) : Server :=
  { s with
    listener := run.tsk
    children := s.children ++ (spawned run.actions).map (⟨·, true⟩)
    listenQueue :=
      s.listenQueue ++ List.range' s.children.length (spawned run.actions).length }

def Server.step (s : Server) : ServerEvent → Option Server
  | .packet cb newIss reads =>
    match s.lookup cb with
    | some i => s.children[i]?.map fun c => s.afterChild i c (tcpProcess c.tsk cb newIss reads).last
    | none =>
      if cb.dport = s.listener.skSport then
        some (s.afterListener (tcpProcess s.listener cb newIss reads).last)
      else none
  | .accept =>
    match s.acceptQueue with
    | [] => none
    | i :: rest => some { s with
        acceptQueue := rest, acceptBacklog := s.acceptBacklog - 1, accepted := s.accepted ++ [i] }
  | .close i =>
    s.children[i]?.map fun c =>
      s.setChild i { c with tsk := (tcpSockClose ⟨c.tsk, [], []⟩).tsk }
  | .timewaitOver i =>
    s.children[i]?.bind fun c =>
      if c.tsk.state = .lastAck ∨ c.tsk.state = .timeWait ∨ c.tsk.state = .closed then
        some (s.setChild i ⟨{ c.tsk with state := .closed }, false⟩)
      else none
  | .change i tsk =>
    s.children[i]?.bind fun c =>
      if tsk.state = c.tsk.state ∧ tsk.skSip = c.tsk.skSip ∧ tsk.skDip = c.tsk.skDip ∧
        tsk.skSport = c.tsk.skSport ∧ tsk.skDport = c.tsk.skDport then
        some (s.setChild i { c with tsk := tsk })
      else none

/-- A socket that has begun to listen with room for at least no connection. -/
structure Serving (s : Server) : Prop where
  listen : s.listener.state = .listen
  backlog : 0 ≤ s.backlog
  children : s.children = []
  listenQueue : s.listenQueue = []
  acceptQueue : s.acceptQueue = []
  acceptBacklog : s.acceptBacklog = 0
  accepted : s.accepted = []
  reached : s.reached = []

/-- The accept queue holds the children that are established and not yet accepted. -/
structure Accounted (s : Server) : Prop where
  nodup : s.acceptQueue.Nodup
  mem_iff : ∀ i, i ∈ s.acceptQueue ↔ i ∈ s.reached ∧ i ∉ s.accepted
  count : s.acceptBacklog = s.acceptQueue.length
  bound : s.acceptBacklog ≤ s.backlog

/-- To a child whose handshake is not complete come no data, and the ACK only while the
accept queue is not full. -/
def Orderly (s : Server) : ServerEvent → Prop
  | .packet cb _ _ =>
    ∀ i ∈ s.lookup cb, ∀ c ∈ s.children[i]?, c.tsk.state = .synRecv →
      ¬IsData cb ∧ (cb.flags = tcpAck → s.acceptBacklog < s.backlog)
  | _ => True

end Server

section Transitions

theorem acceptEnqueue_mem_iff (tsk : TcpSock) (cb : TcpCb) (newIss : UInt32) (reads : List ℕ) :
    .acceptEnqueue ∈ (tcpProcess tsk cb newIss reads).last.actions ↔
      (seen tsk cb reads).flags = tcpAck ∧ tsk.state = .synRecv := by
  rw [← mem_marks rfl, tcpProcess_marks]
  have hstate := (updateRcvNxt_state tsk cb).1
  by_cases hack : (seen tsk cb reads).flags = tcpAck
  · have hsyn : (seen tsk cb reads).flags ≠ tcpSyn := by rw [hack]; decide
    have hsynack : (seen tsk cb reads).flags ≠ tcpSyn ||| tcpAck := by rw [hack]; decide
    rw [switchMarks, if_neg hsyn, if_neg hsynack, if_pos hack, ackMarks, hstate]
    cases hs : tsk.state <;> simp [hack]
    split_ifs <;> simp
  · refine ⟨fun h => ?_, fun h => absurd h.1 hack⟩
    rw [switchMarks, if_neg hack] at h
    split_ifs at h <;> simp at h

theorem nextState_ne_synRecv {state : TcpState} (h : state ≠ .synRecv) (flags : UInt8) :
    nextState state flags ≠ .synRecv := by
  unfold nextState
  split_ifs
  · cases state <;> simp at h ⊢
  · exact h
  · simp
  · exact h
  · cases state <;> simp at h ⊢
  · exact h

theorem nextState_synRecv_of_other {cb : TcpCb} (hack : cb.flags ≠ tcpAck) (hdata : ¬IsData cb) :
    nextState .synRecv cb.flags = .synRecv := by
  have hpsh : ¬(cb.flags = tcpPsh ∨ cb.flags = tcpPsh ||| tcpAck) := hdata
  simp [nextState, hack, hpsh]

theorem mem_spawned {actions : List Action} {csk : TcpSock} :
    csk ∈ spawned actions ↔ .spawnChild csk ∈ actions := by
  unfold spawned
  rw [List.mem_filterMap]
  constructor
  · rintro ⟨a, ha, heq⟩
    cases a <;> simp at heq
    exact heq ▸ ha
  · exact fun h => ⟨_, h, rfl⟩

theorem spawned_state {tsk csk : TcpSock} {cb : TcpCb} {newIss : UInt32} {reads : List ℕ}
    (h : csk ∈ spawned (tcpProcess tsk cb newIss reads).last.actions) : csk.state = .synRecv := by
  have hmark := (mem_marks rfl).mpr (mem_spawned.mp h)
  rw [tcpProcess_marks] at hmark
  have hack (tsk : TcpSock) : .spawnChild csk ∉ ackMarks tsk := by
    unfold ackMarks
    split
    · simp
    · split_ifs <;> simp
    · simp
  unfold switchMarks at hmark
  split_ifs at hmark <;> first | exact absurd hmark (hack _) | simp at hmark
  rw [hmark]
  rfl

theorem tcpSockClose_state (run : Run) :
    (tcpSockClose run).tsk.state = .synRecv ↔ run.tsk.state = .synRecv := by
  unfold tcpSockClose
  cases hstate : run.tsk.state with
  | established | closeWait => exact ⟨nofun, nofun⟩
  | synRecv | closed | listen | synSent | lastAck | finWait1 | finWait2 | closing | timeWait =>
    rw [hstate]

end Transitions

section Invariant

/-- A child has been established exactly when it is no longer in `SYN_RECV`. -/
structure ServerInv (s : Server) : Prop where
  listen : s.listener.state = .listen
  started : ∀ i c, s.children[i]? = some c → (i ∈ s.reached ↔ c.tsk.state ≠ .synRecv)
  bounded : ∀ i ∈ s.reached, i < s.children.length
  accepted : ∀ i ∈ s.accepted, i ∈ s.reached
  accounted : Accounted s

theorem Serving.inv {s : Server} (h : Serving s) : ServerInv s where
  listen := h.listen
  started := by simp [h.children]
  bounded := by simp [h.reached]
  accepted := by simp [h.accepted]
  accounted := by
    refine ⟨by simp [h.acceptQueue], by simp [h.acceptQueue, h.reached], ?_, ?_⟩
    · simp [h.acceptBacklog, h.acceptQueue]
    · rw [h.acceptBacklog]
      exact h.backlog

variable {s : Server}

theorem ServerInv.setChild (h : ServerInv s) {i : ℕ} {c c' : Child} (hi : s.children[i]? = some c)
    (hstate : c'.tsk.state = .synRecv ↔ c.tsk.state = .synRecv) : ServerInv (s.setChild i c') where
  listen := h.listen
  started := by
    intro j d hj
    simp only [Server.setChild, List.getElem?_set] at hj
    split_ifs at hj with heq hlt
    · obtain rfl := heq
      cases hj
      exact (h.started i c hi).trans (not_congr hstate.symm)
    · exact h.started j d hj
  bounded := by
    intro j hj
    have hlt := h.bounded j hj
    simpa only [Server.setChild, List.length_set] using hlt
  accepted := h.accepted
  accounted := ⟨h.accounted.nodup, h.accounted.mem_iff, h.accounted.count, h.accounted.bound⟩

/-- The handshake of a child is completed by an ACK. -/
theorem ServerInv.establish (h : ServerInv s) {i : ℕ} {c c' : Child}
    (hi : s.children[i]? = some c) (hwait : c.tsk.state = .synRecv)
    (hest : c'.tsk.state = .established) (hroom : s.acceptBacklog < s.backlog) :
    ServerInv (((s.acceptEnqueue i).reach i .established).setChild i c') := by
  have hlt : i < s.children.length := (List.getElem?_eq_some_iff.mp hi).1
  have hnew : i ∉ s.reached := fun hmem => (h.started i c hi).mp hmem hwait
  have hqueue : i ∉ s.acceptQueue := fun hmem => hnew ((h.accounted.mem_iff i).mp hmem).1
  have hnot : i ∉ s.accepted := fun hmem => hnew (h.accepted i hmem)
  have hreach : (s.acceptEnqueue i).reach i .established =
      { s.acceptEnqueue i with reached := s.reached ++ [i] } := if_pos ⟨rfl, hnew⟩
  rw [hreach]
  refine ⟨h.listen, ?_, ?_, ?_, ?_, ?_, ?_, ?_⟩
  · intro j d hj
    simp only [Server.setChild, Server.acceptEnqueue, List.getElem?_set] at hj ⊢
    split_ifs at hj with heq
    · obtain rfl := heq
      cases hj
      simp [hest]
    · have hmem : j ∈ s.reached ++ [i] ↔ j ∈ s.reached := by
        simp only [List.mem_append, List.mem_singleton, Ne.symm heq, or_false]
      exact hmem.trans (h.started j d hj)
  · intro j hj
    simp only [Server.setChild, Server.acceptEnqueue, List.length_set]
    rcases List.mem_append.mp hj with hold | hone
    · exact h.bounded j hold
    · exact List.mem_singleton.mp hone ▸ hlt
  · exact fun j hj => List.mem_append_left _ (h.accepted j hj)
  · simp only [Server.setChild, Server.acceptEnqueue, List.erase_of_not_mem hqueue]
    exact List.nodup_append.mpr ⟨h.accounted.nodup, List.nodup_singleton i,
      fun j hj k hk => by rw [List.mem_singleton.mp hk]; exact fun heq => hqueue (heq ▸ hj)⟩
  · intro j
    simp only [Server.setChild, Server.acceptEnqueue, List.erase_of_not_mem hqueue,
      List.mem_append, List.mem_singleton, h.accounted.mem_iff j]
    constructor
    · rintro (⟨hr, ha⟩ | rfl)
      · exact ⟨.inl hr, ha⟩
      · exact ⟨.inr rfl, hnot⟩
    · rintro ⟨hr | rfl, ha⟩
      · exact .inl ⟨hr, ha⟩
      · exact .inr rfl
  · have hcount := h.accounted.count
    simp only [Server.setChild, Server.acceptEnqueue, List.erase_of_not_mem hqueue,
      List.length_append, List.length_singleton]
    omega
  · simp only [Server.setChild, Server.acceptEnqueue]
    omega

theorem ServerInv.afterChild (h : ServerInv s) {i : ℕ} {c : Child} (hi : s.children[i]? = some c)
    (cb : TcpCb) (newIss : UInt32) (reads : List ℕ)
    (hok : c.tsk.state = .synRecv →
      ¬IsData cb ∧ (cb.flags = tcpAck → s.acceptBacklog < s.backlog)) :
    ServerInv (s.afterChild i c (tcpProcess c.tsk cb newIss reads).last) := by
  have hstate := tcpProcess_state c.tsk cb newIss reads
  unfold Server.afterChild
  simp only [acceptEnqueue_mem_iff]
  by_cases hwait : c.tsk.state = .synRecv
  · obtain ⟨hdata, hroom⟩ := hok hwait
    by_cases hack : (seen c.tsk cb reads).flags = tcpAck
    · have hest : (tcpProcess c.tsk cb newIss reads).last.tsk.state = .established := by
        rw [hstate, hwait, hack]
        rfl
      rw [if_pos ⟨hack, hwait⟩, hest]
      exact h.establish hi hwait hest (hroom (flags_of_seen hack (by decide)))
    · have hstay : (tcpProcess c.tsk cb newIss reads).last.tsk.state = .synRecv := by
        rw [hstate, hwait]
        exact nextState_synRecv_of_other hack (mt isData_of_seen hdata)
      rw [if_neg fun hboth => hack hboth.1, hstay, Server.reach, if_neg (by simp)]
      exact h.setChild hi (iff_of_true hstay hwait)
  · have hgone : (tcpProcess c.tsk cb newIss reads).last.tsk.state ≠ .synRecv := by
      rw [hstate]
      exact nextState_ne_synRecv hwait _
    have hreached : i ∈ s.reached := (h.started i c hi).mpr hwait
    rw [if_neg fun hboth => hwait hboth.2, Server.reach, if_neg fun hnew => hnew.2 hreached]
    exact h.setChild hi (iff_of_false hgone hwait)

/-- New children wait in `SYN_RECV`. -/
theorem ServerInv.afterListener (h : ServerInv s) {run : Run} (hlisten : run.tsk.state = .listen)
    (hspawn : ∀ csk ∈ spawned run.actions, csk.state = .synRecv) :
    ServerInv (s.afterListener run) where
  listen := hlisten
  started := by
    intro i c hi
    simp only [Server.afterListener] at hi ⊢
    by_cases hlt : i < s.children.length
    · rw [List.getElem?_append_left hlt] at hi
      exact h.started i c hi
    · rw [List.getElem?_append_right (Nat.le_of_not_lt hlt)] at hi
      have hmem := List.mem_of_getElem? hi
      obtain ⟨csk, hcsk, rfl⟩ := List.mem_map.mp hmem
      exact iff_of_false (fun hr => hlt (h.bounded i hr)) (not_not_intro (hspawn csk hcsk))
  bounded := by
    intro i hi
    have hlt := h.bounded i hi
    simp only [Server.afterListener, List.length_append]
    omega
  accepted := h.accepted
  accounted := ⟨h.accounted.nodup, h.accounted.mem_iff, h.accounted.count, h.accounted.bound⟩

/-- The accept queue is accounted for in every run of such steps. -/
theorem accept_queue_accounted {s : Server} (h : Reaches Server.step Orderly Serving s) :
    Accounted s := by
  refine (h.invariant ServerInv (fun _ hs => hs.inv) fun s e t hinv hok hstep => ?_).accounted
  cases e with
  | packet cb newIss reads =>
    simp only [Server.step] at hstep
    split at hstep
    next i hlookup =>
      obtain ⟨c, hi, rfl⟩ := Option.map_eq_some_iff.mp hstep
      exact hinv.afterChild hi cb newIss reads (hok i hlookup c hi)
    next =>
      split_ifs at hstep
      cases hstep
      refine hinv.afterListener ?_ fun csk hcsk => spawned_state hcsk
      rw [tcpProcess_state, hinv.listen]
      simp [nextState]
  | accept =>
    obtain ⟨hnodup, hmem, hcount, hbound⟩ := hinv.accounted
    simp only [Server.step] at hstep
    cases hqueue : s.acceptQueue with
    | nil =>
      rw [hqueue] at hstep
      cases hstep
    | cons i rest =>
      rw [hqueue] at hstep hnodup hmem hcount
      cases hstep
      obtain ⟨hi, hrest⟩ := List.nodup_cons.mp hnodup
      refine ⟨hinv.listen, hinv.started, hinv.bounded, fun j hj => ?_, hrest, fun j => ?_, ?_, ?_⟩
      · rcases List.mem_append.mp hj with hold | hone
        · exact hinv.accepted j hold
        · exact List.mem_singleton.mp hone ▸ ((hmem i).mp List.mem_cons_self).1
      · have hj := hmem j
        simp only [List.mem_cons] at hj
        simp only [List.mem_append, List.mem_singleton, not_or]
        constructor
        · intro hjr
          obtain ⟨hr, ha⟩ := hj.mp (.inr hjr)
          exact ⟨hr, ha, fun heq => hi (heq ▸ hjr)⟩
        · rintro ⟨hr, ha, hne⟩
          exact (hj.mpr ⟨hr, ha⟩).resolve_left hne
      · simp only [List.length_cons] at hcount
        push_cast at hcount
        simp only
        omega
      · simp only
        omega
  | close i =>
    obtain ⟨c, hi, rfl⟩ := Option.map_eq_some_iff.mp hstep
    exact hinv.setChild hi (tcpSockClose_state _)
  | timewaitOver i =>
    obtain ⟨c, hi, hover⟩ := Option.bind_eq_some_iff.mp hstep
    split_ifs at hover with hstate
    cases hover
    refine hinv.setChild hi (iff_of_false (by simp) ?_)
    rcases hstate with h | h | h <;> rw [h] <;> decide
  | change i tsk =>
    obtain ⟨c, hi, hchange⟩ := Option.bind_eq_some_iff.mp hstep
    split_ifs at hchange with hsame
    cases hchange
    exact hinv.setChild hi (by rw [hsame.1])

end Invariant

section Instance

/-- A server on port 80 that lets one connection wait. -/
def port80 : Server := ⟨listening, 1, [], [], [], 0, [], []⟩

theorem serving_port80 : Serving port80 := ⟨rfl, by decide, rfl, rfl, rfl, rfl, rfl, rfl⟩

/-- A packet from a port of the peer. -/
def peerSends (sport : UInt16) (flags : UInt8) (payload : List UInt8) : ServerEvent :=
  .packet { forPort80 flags 500 payload with sport := sport } 7 []

instance (s : Server) : (e : ServerEvent) → Decidable (Orderly s e)
  | .packet cb _ _ => inferInstanceAs (Decidable (∀ i ∈ s.lookup cb, ∀ c ∈ s.children[i]?,
      c.tsk.state = .synRecv → ¬IsData cb ∧ (cb.flags = tcpAck → s.acceptBacklog < s.backlog)))
  | .accept | .close _ | .timewaitOver _ | .change _ _ => isTrue trivial

/-- Two peers connect one after the other. -/
def twoPeers : List ServerEvent :=
  [peerSends 1024 tcpSyn [], peerSends 1025 tcpSyn [], peerSends 1025 tcpAck [], .accept,
    peerSends 1024 tcpAck [], peerSends 1024 tcpPsh [1, 2]]

theorem twoPeers_isSome : (exec Server.step Orderly port80 twoPeers).isSome := by
  decide +kernel

theorem accept_queue_accounted_twoPeers :
    ∃ s : Server, s.acceptQueue = [0] ∧ s.accepted = [1] ∧ Accounted s := by
  have hrun := Option.some_get twoPeers_isSome
  refine ⟨_, ?_, ?_, accept_queue_accounted (.of_exec (.start serving_port80) hrun.symm)⟩
  · decide +kernel
  · decide +kernel

/-- The ACK of the handshake is lost and data follows: the child is established, but it
is not in the queue. -/
def lostAck : List ServerEvent := [peerSends 1024 tcpSyn [], peerSends 1024 tcpPsh [1, 2]]

theorem lostAck_isSome : (exec Server.step anyStep port80 lostAck).isSome := by
  decide +kernel

theorem data_establishes_without_enqueue : ∃ s : Server,
    Reaches Server.step anyStep Serving s ∧ s.reached = [0] ∧ s.acceptQueue = [] ∧
      ¬Accounted s := by
  have hrun := Option.some_get lostAck_isSome
  have hreached :
      ((exec Server.step anyStep port80 lostAck).get lostAck_isSome).reached = [0] := by
    decide +kernel
  have hqueue :
      ((exec Server.step anyStep port80 lostAck).get lostAck_isSome).acceptQueue = [] := by
    decide +kernel
  have haccepted :
      ((exec Server.step anyStep port80 lostAck).get lostAck_isSome).accepted = [] := by
    decide +kernel
  refine ⟨_, .of_exec (.start serving_port80) hrun.symm, hreached, hqueue, fun h => ?_⟩
  have hmem := (h.mem_iff 0).mpr ⟨by rw [hreached]; decide, by rw [haccepted]; decide⟩
  rw [hqueue] at hmem
  cases hmem

/-- Nothing keeps a second handshake from overfilling the queue. -/
example : (exec Server.step anyStep port80 [peerSends 1024 tcpSyn [], peerSends 1025 tcpSyn [],
    peerSends 1024 tcpAck [], peerSends 1025 tcpAck []]).map
      (fun s => (s.acceptBacklog, s.backlog)) = some (2, 1) := by
  decide +kernel

end Instance

end NetworkLab.Tcp
