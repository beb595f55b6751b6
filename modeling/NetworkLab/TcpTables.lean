import NetworkLab.AcceptQueue
import NetworkLab.LinkedLists
import Mathlib.Data.Set.Card

/-!
# The socket tables and the timer list

A socket has four list nodes: one for the established or the listen table, one for the
bind table, and one for each of its timers, which are in one timer list. A table is an
array of lists. The links of a new socket are null, and list operations through a null
link have no defined result; nor has any use of a socket that has been freed.
-/
namespace NetworkLab.Tcp
open LinkedLists

section Nodes

/-- The lists: the buckets of the three tables, and the timer list. -/
inductive ListName
  | established (i : UInt8)
  | listen (i : UInt8)
  | bind (i : UInt8)
  | timer
  deriving DecidableEq

/-- List heads and the nodes inside of sockets, which are numbered as they are allocated. -/
inductive ListNode
  | head (l : ListName)
  | hashList (i : ℕ)
  | bindHashList (i : ℕ)
  | timewait (i : ℕ)
  | retransTimer (i : ℕ)
  deriving DecidableEq

/-- The nodes of a socket. -/
def nodesOf (i : ℕ) : Finset ListNode :=
  {.hashList i, .bindHashList i, .timewait i, .retransTimer i}

def tcpHashFunction (saddr daddr : UInt32) (sport dport : UInt16) : UInt8 :=
  hash8 (bytes32 saddr) ^^^ hash8 (bytes32 daddr) ^^^ hash8 (bytes16 sport) ^^^
    hash8 (bytes16 dport)

/-- A socket with its count of references and the time left of its time-wait timer. -/
structure SockEntry where
  tsk : TcpSock
  refCnt : ℤ
  timeout : ℤ
  freed : Bool

/-- What is recorded of list deletions and of calls of `free_tcp_sock`: the links before and
after, and the count with whether the socket was released. -/
inductive TableNote
  | removed (x : ListNode) (before after : Links ListNode)
  | dropped (refCnt : ℤ) (released : Bool)

structure Tables where
  socks : List SockEntry
  links : Links ListNode
  log : List TableNote

end Nodes

namespace Tables

variable (s : Tables)

section Access

/-- A socket that is in use. -/
def get (i : ℕ) : Option SockEntry := s.socks[i]?.filter fun e => !e.freed

def set (i : ℕ) (e : SockEntry) : Tables := { s with socks := s.socks.set i e }

/-- The socket around a node of the list. -/
def entryOf : ListName → ListNode → Option (ℕ × SockEntry)
  | .established _, .hashList i => (s.get i).map (i, ·)
  | .listen _, .hashList i => (s.get i).map (i, ·)
  | .bind _, .bindHashList i => (s.get i).map (i, ·)
  | _, _ => none

def entries (l : ListName) : List ListNode → Option (List (ℕ × SockEntry))
  | [] => some []
  | x :: xs => do
    let e ← s.entryOf l x
    let es ← entries l xs
    some (e :: es)

/-- The sockets that a loop over a bucket visits. -/
def bucket (l : ListName) : Option (List (ℕ × SockEntry)) :=
  (s.links.traverse (2 * s.socks.length) (.head l)).bind (s.entries l)

/-- `list_delete_entry`. -/
def unlink (x : ListNode) : Option Tables :=
  (s.links.delete x).map fun links =>
    { s with links := links, log := s.log ++ [.removed x s.links links] }

end Access

section References

/-- A new socket; `tcp_set_retrans_timer` puts it on the timer list. -/
def alloc (tsk : TcpSock) : Option Tables :=
  (s.links.addTail (.retransTimer s.socks.length) (.head .timer)).map fun links =>
    { s with socks := s.socks ++ [⟨tsk, 1, 0, false⟩], links := links }

/-- Count a reference by new links. -/
def refer (i : ℕ) (e : SockEntry) (links : Links ListNode) : Tables :=
  { s with socks := s.socks.set i { e with refCnt := e.refCnt + 1 }, links := links }

def freeTcpSock (i : ℕ) : Option Tables := do
  let e ← s.get i
  if e.refCnt - 1 ≤ 0 then
    let t ← s.unlink (.retransTimer i)
    some { t.set i { e with refCnt := e.refCnt - 2, freed := true } with
      log := t.log ++ [.dropped (e.refCnt - 1) true] }
  else
    some { s.set i { e with refCnt := e.refCnt - 1 } with
      log := s.log ++ [.dropped (e.refCnt - 1) false] }

def tcpBindHash (i : ℕ) : Option Tables := do
  let e ← s.get i
  let links ← s.links.addHead (.bindHashList i)
    (.head (.bind (tcpHashFunction 0 0 e.tsk.skSport 0)))
  some (s.refer i e links)

def tcpBindUnhash (i : ℕ) : Option Tables :=
  if s.links.next (.bindHashList i) = some (.bindHashList i) then some s
  else (s.unlink (.bindHashList i)).bind (·.freeTcpSock i)

def SameEnds (tsk tsk' : TcpSock) : Prop :=
  tsk.skSip = tsk'.skSip ∧ tsk.skDip = tsk'.skDip ∧ tsk.skSport = tsk'.skSport ∧
    tsk.skDport = tsk'.skDport

instance (tsk tsk' : TcpSock) : Decidable (SameEnds tsk tsk') :=
  inferInstanceAs (Decidable (_ ∧ _))

/-- `tcp_hash`; a socket whose addresses and ports are in the table is not hashed. -/
def tcpHash (i : ℕ) : Option Tables := do
  let e ← s.get i
  match e.tsk.state with
  | .closed => some s
  | .listen =>
    let links ← s.links.addHead (.hashList i)
      (.head (.listen (tcpHashFunction 0 0 e.tsk.skSport 0)))
    some (s.refer i e links)
  | _ =>
    let l : ListName :=
      .established (tcpHashFunction e.tsk.skSip e.tsk.skDip e.tsk.skSport e.tsk.skDport)
    let es ← s.bucket l
    if es.any fun e' => decide (SameEnds e.tsk e'.2.tsk) then some s
    else
      let links ← s.links.addHead (.hashList i) (.head l)
      some (s.refer i e links)

def tcpUnhash (i : ℕ) : Option Tables :=
  if s.links.next (.hashList i) = some (.hashList i) then some s
  else (s.unlink (.hashList i)).bind (·.freeTcpSock i)

def tcpTimewaitTimeout : ℤ := 2 * 1000000

def tcpSetTimewaitTimer (i : ℕ) : Option Tables := do
  let e ← s.get i
  let links ← s.links.addTail (.timewait i) (.head .timer)
  some (s.refer i { e with timeout := tcpTimewaitTimeout } links)

end References

section Timer

/-- One timer in the loop of `tcp_scan_timer_list`. -/
def fire : ListNode → Option Tables
  | .timewait i => do
    let e ← s.get i
    let e := { e with timeout := e.timeout - tcpTimerScanInterval }
    if e.timeout ≤ 0 then
      let t ← (s.set i e).unlink (.timewait i)
      let t := t.set i { e with tsk.state := .closed }
      let t ← if e.tsk.hasParent then some t else t.tcpBindUnhash i
      t.tcpUnhash i
    else some (s.set i e)
  | .retransTimer i => do
    let e ← s.get i
    some (s.set i { e with tsk := tcpScanRetrans e.tsk })
  | _ => none

/-- The loop from a node on; the next node is read before the timer is looked at. -/
def scanFrom : ℕ → Tables → ListNode → Option Tables
  | 0, s, x => if x = .head .timer then some s else none
  | fuel + 1, s, x =>
    if x = .head .timer then some s
    else (s.links.next x).bind fun next => (s.fire x).bind fun t => scanFrom fuel t next

def tcpScanTimerList : Option Tables :=
  (s.links.next (.head .timer)).bind (scanFrom (2 * s.socks.length) s)

end Timer

section Calls

def portMin : UInt16 := 12345
def portMax : UInt16 := 23456

def tcpPortInUse (port : UInt16) : Option Bool :=
  (s.bucket (.bind (tcpHashFunction 0 0 port 0))).map fun es =>
    es.any fun e => decide (e.2.tsk.skSport = port)

/-- The loop of `tcp_get_port` over the ports that are left. -/
def getPortFrom : ℕ → UInt16 → Option UInt16
  | 0, _ => some 0
  | n + 1, port => do
    let used ← s.tcpPortInUse port
    if used then getPortFrom n (port + 1) else some port

def tcpGetPort : Option UInt16 := s.getPortFrom (portMax.toNat - portMin.toNat) portMin

/-- The port that `tcp_sock_set_sport` takes, if there is one. -/
def choosePort (port : UInt16) : Option (Option UInt16) :=
  if port ≠ 0 then (s.tcpPortInUse port).map fun used => if used then none else some port
  else s.tcpGetPort.map fun port => if port = 0 then none else some port

def tcpSockBind (i : ℕ) (port : UInt16) : Option Tables := do
  let e ← s.get i
  match ← s.choosePort port with
  | none => some s
  | some port => (s.set i { e with tsk.skSport := port }).tcpBindHash i

def tcpSockListen (i : ℕ) : Option Tables := do
  let e ← s.get i
  (s.set i { e with tsk := Tcp.tcpSockListen e.tsk }).tcpHash i

/-- `tcp_sock_connect` until it sleeps. -/
def tcpSockConnect (i : ℕ) (sip dip : UInt32) (dport : UInt16) (newIss : UInt32) :
    Option Tables := do
  let e ← s.get i
  match ← s.choosePort 0 with
  | none => some (s.set i { e with tsk.skSip := sip, tsk.skDip := dip, tsk.skDport := dport })
  | some sport =>
    let run := Tcp.tcpSockConnect ⟨e.tsk, [], []⟩ sip dip sport dport newIss
    let t ← (s.set i { e with tsk := run.tsk }).tcpBindHash i
    t.tcpHash i

/-- `tcp_sock_lookup`. -/
def lookup (cb : TcpCb) : Option (Option ℕ) := do
  let es ← s.bucket (.established (tcpHashFunction cb.daddr cb.saddr cb.dport cb.sport))
  match es.find? fun e => decide (SameTuple e.2.tsk cb) with
  | some e => some (some e.1)
  | none =>
    let ls ← s.bucket (.listen (tcpHashFunction 0 0 cb.dport 0))
    some ((ls.find? fun e => decide (e.2.tsk.skSport = cb.dport)).map (·.1))

/-- What a call of `tcp_process` does to the tables. -/
def perform (i : ℕ) : Action → Option Tables
  | .spawnChild csk => (s.alloc csk).bind (·.tcpHash s.socks.length)
  | .setTimewaitTimer => s.tcpSetTimewaitTimer i
  | .bindUnhash => s.tcpBindUnhash i
  | .unhash => s.tcpUnhash i
  | _ => some s

end Calls

end Tables

section Steps

/-- `woken` is the rest of a call of `tcp_sock_connect`, and `change` is what reads, writes
and waits do to a socket. -/
inductive TableEvent
  | alloc
  | bind (i : ℕ) (port : UInt16)
  | listen (i : ℕ)
  | connect (i : ℕ) (sip dip : UInt32) (dport : UInt16) (newIss : UInt32)
  | woken (i : ℕ)
  | packet (cb : TcpCb) (newIss : UInt32) (reads : List ℕ)
  | close (i : ℕ)
  | scan
  | change (i : ℕ) (tsk : TcpSock)

def Tables.step (s : Tables) : TableEvent → Option Tables
  | .alloc => s.alloc allocTcpSock
  | .bind i port => s.tcpSockBind i port
  | .listen i => s.tcpSockListen i
  | .connect i sip dip dport newIss => s.tcpSockConnect i sip dip dport newIss
  | .woken i => do
    let e ← s.get i
    if e.tsk.state = .synSent then
      some (s.set i { e with tsk := (tcpSockConnected ⟨e.tsk, [], []⟩).tsk })
    else none
  | .packet cb newIss reads => do
    match ← s.lookup cb with
    | none => some s
    | some i =>
      let e ← s.get i
      let run := (tcpProcess e.tsk cb newIss reads).last
      run.marks.foldlM (fun t a => t.perform i a) (s.set i { e with tsk := run.tsk })
  | .close i => do
    let e ← s.get i
    some (s.set i { e with tsk := (tcpSockClose ⟨e.tsk, [], []⟩).tsk })
  | .scan => s.tcpScanTimerList
  | .change i tsk => do
    let e ← s.get i
    if tsk.state = e.tsk.state ∧ tsk.hasParent = e.tsk.hasParent ∧
        Tables.SameEnds tsk e.tsk then
      some (s.set i { e with tsk := tsk })
    else none

/-- `init_tcp_stack`. -/
def initTcpStack : Tables where
  socks := []
  links :=
    { next := fun x => match x with
        | .head l => some (.head l)
        | _ => none
      prev := fun x => match x with
        | .head l => some (.head l)
        | _ => none }
  log := []

/-- The number of nodes of the socket that are in a list. -/
noncomputable def places (m : Links ListNode) (i : ℕ) : ℕ :=
  {x | x ∈ nodesOf i ∧ Linked m ListNode.head x}.ncard

/-- A node is deleted from a list that holds it, and every other node stays where it is. A
socket is released when the last reference is dropped. -/
def TableNote.Clean : TableNote → Prop
  | .removed x before after => Linked before ListNode.head x ∧
      ∀ l y, y ≠ x → Holds before (ListNode.head l) y → Holds after (ListNode.head l) y
  | .dropped refCnt released => released = true ↔ refCnt = 0

/-- The counts are those of the tables and of the timer list, and deletions have been clean. -/
structure Referenced (s : Tables) : Prop where
  count : ∀ (i : ℕ) (e : SockEntry), s.socks[i]? = some e → e.freed = false →
    e.refCnt = places s.links i
  freed : ∀ (i : ℕ) (e : SockEntry), s.socks[i]? = some e → e.freed = true →
    places s.links i = 0
  log : ∀ note ∈ s.log, note.Clean

/-- The packet sets the time-wait timer. -/
def SetsTimer (state : TcpState) (flags : UInt8) : Prop :=
  flags = tcpAck ||| tcpFin ∧ state = .finWait1 ∨
    flags = tcpFin ∧ (state = .established ∨ state = .finWait2)

/-- No call and no packet puts a node into a list while it is in one, and no time-wait timer
runs out. -/
def Careful (s : Tables) : TableEvent → Prop
  | .bind i port =>
    s.choosePort port ≠ some none → ¬Linked s.links ListNode.head (.bindHashList i)
  | .listen i => ¬Linked s.links ListNode.head (.hashList i)
  | .connect i _ _ _ _ => s.choosePort 0 ≠ some none →
      ¬Linked s.links ListNode.head (.bindHashList i) ∧
        ¬Linked s.links ListNode.head (.hashList i)
  | .packet cb _ _ => ∀ i e, s.lookup cb = some (some i) → s.socks[i]? = some e →
      SetsTimer e.tsk.state cb.flags → ¬Linked s.links ListNode.head (.timewait i)
  | .scan => ∀ i e, s.socks[i]? = some e → Linked s.links ListNode.head (.timewait i) →
      tcpTimerScanInterval < e.timeout
  | _ => True

end Steps

end NetworkLab.Tcp
