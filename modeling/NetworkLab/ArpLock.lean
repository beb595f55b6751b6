import NetworkLab.RouterArp
import NetworkLab.RouterIp

/-!
# The lock of the ARP cache in the first router

`arpcache.c` and the end of `arp.c`, with the lock of the cache. The sweep reports the packets of a
request that it gives up while it holds the lock, and the report is sent like any packet: its next
hop is looked up in the cache.
-/
namespace NetworkLab.Router
open GuardedRuns
open Arp (ArpCacheEntry maxArpSize)

section Model

/-- `ARP_REQUEST_MAX_RETRIES`. -/
def arpRequestMaxRetries : ℤ := 5

structure CachedPkt where
  packet : ℕ → UInt8
  len : ℤ

structure ArpReq where
  iface : IfaceInfo
  ip4 : UInt32
  sent : ℕ
  retries : ℤ
  cachedPackets : List CachedPkt

/-- What has gone out by `iface_send_packet`. -/
inductive Frame
  | arpRequest (iface : IfaceInfo) (ip4 : UInt32)
  | packet (iface : IfaceInfo) (dst : Vector UInt8 6) (pkt : CachedPkt)

structure ArpCache where
  entries : Fin maxArpSize → ArpCacheEntry (Vector UInt8 6)
  reqList : List ArpReq
  /-- A thread holds the lock. -/
  locked : Bool
  frames : List Frame

/-- Why a thread does not come back from the cache. -/
inductive LockFault
  /-- It locks what it holds. -/
  | relock
  /-- It follows a null pointer. -/
  | nullEntry
  deriving DecidableEq

/-- `pthread_mutex_lock`, by the only thread that runs. -/
def lock (c : ArpCache) : Except LockFault ArpCache :=
  if c.locked then .error .relock else .ok { c with locked := true }

/-- `pthread_mutex_unlock`. -/
def unlock (c : ArpCache) : ArpCache := { c with locked := false }

def send (frame : Frame) (c : ArpCache) : ArpCache := { c with frames := c.frames ++ [frame] }

def arpcacheLookup (ip4 : UInt32) (c : ArpCache) :
    Except LockFault (Option (Vector UInt8 6) × ArpCache) := do
  let c ← lock c
  .ok (Arp.arpcacheLookup c.entries ip4, unlock c)

/-- The request that a packet is added to, if there is one. Interfaces are compared by index. -/
def appendFound (iface : IfaceInfo) (ip4 : UInt32) (pkt : CachedPkt) :
    List ArpReq → Option (List ArpReq)
  | [] => none
  | req :: reqs =>
    if req.ip4 = ip4 ∧ req.iface.index = iface.index then
      some ({ req with cachedPackets := req.cachedPackets ++ [pkt] } :: reqs)
    else (appendFound iface ip4 pkt reqs).map (req :: ·)

def arpcacheAppendPacket (iface : IfaceInfo) (ip4 : UInt32) (pkt : CachedPkt) (now : ℕ)
    (c : ArpCache) : Except LockFault ArpCache := do
  let c ← lock c
  match appendFound iface ip4 pkt c.reqList with
  | some reqList => .ok (unlock { c with reqList := reqList })
  | none =>
    let newReq : ArpReq := ⟨iface, ip4, now, arpRequestMaxRetries, [pkt]⟩
    let c := { c with reqList := c.reqList ++ [newReq] }
    .ok (unlock (send (.arpRequest iface ip4) c))

def arpcacheInsert (ip4 : UInt32) (mac : Vector UInt8 6) (now : ℕ) (c : ArpCache) :
    Except LockFault ArpCache := do
  let c ← lock c
  let c := { c with entries := insertEntry c.entries ip4 mac now }
  match c.reqList.find? fun req => decide (req.ip4 = ip4) with
  | none => .ok (unlock c)
  | some req =>
    let c := { c with
      frames := c.frames ++ req.cachedPackets.map (.packet req.iface mac)
      reqList := c.reqList.eraseP fun req => decide (req.ip4 = ip4) }
    .ok (unlock c)

def ifaceSendPacketByArp (out : ArpSend) (now : ℕ) (c : ArpCache) : Except LockFault ArpCache := do
  let (mac, c) ← arpcacheLookup out.dstIp c
  match mac with
  | some mac => .ok (send (.packet out.iface mac ⟨out.packet, out.len⟩) c)
  | none => arpcacheAppendPacket out.iface out.dstIp ⟨out.packet, out.len⟩ now c

/-- What the code takes from its surroundings in the sweep: the routing table, and for an ICMP
packet the memory and the random number. -/
structure SweepEnv where
  rtable : List (RtEntry IfaceInfo)
  memory : ℕ → UInt8
  id : UInt16

/-- The reports for the packets of a request. -/
def sweepPkts (env : SweepEnv) (now : ℕ) : List CachedPkt → ArpCache → Except LockFault ArpCache
  | [], c => .ok c
  | pkt :: pkts, c =>
    match icmpSendPacket env.rtable env.memory pkt.packet pkt.len icmpDestUnreach icmpHostUnreach
      env.id with
    | none => .error .nullEntry
    | some out => do
      let c ← ifaceSendPacketByArp out now c
      sweepPkts env now pkts c

/-- The second loop of `arpcache_sweep`: the requests that are left. The time is read again for
each request. -/
def sweepReqs (env : SweepEnv) : (ℕ → ℕ) → List ArpReq → ArpCache →
    Except LockFault (List ArpReq × ArpCache)
  | _, [], c => .ok ([], c)
  | clock, req :: reqs, c => do
    let now := clock 0
    if (now : ℤ) - req.sent > 1 then
      let retries : ℤ := req.retries - 1
      if 0 < retries then
        let c := send (.arpRequest req.iface req.ip4) c
        let (kept, c) ← sweepReqs env (fun n => clock (n + 1)) reqs c
        .ok ({ req with sent := now, retries := retries } :: kept, c)
      else
        let c ← sweepPkts env now req.cachedPackets c
        sweepReqs env (fun n => clock (n + 1)) reqs c
    else
      let (kept, c) ← sweepReqs env (fun n => clock (n + 1)) reqs c
      .ok (req :: kept, c)

/-- One round of `arpcache_sweep`. -/
def arpcacheSweep (env : SweepEnv) (now : ℕ) (clock : ℕ → ℕ) (c : ArpCache) :
    Except LockFault ArpCache := do
  let c ← lock c
  let c := { c with entries := ageEntries c.entries now }
  let (kept, c) ← sweepReqs env clock c.reqList c
  .ok (unlock { c with reqList := kept })

/-- A call of an operation on the cache. -/
inductive ArpOp
  | lookup (ip4 : UInt32)
  | append (iface : IfaceInfo) (ip4 : UInt32) (pkt : CachedPkt) (now : ℕ)
  | insert (ip4 : UInt32) (mac : Vector UInt8 6) (now : ℕ)
  | sweep (env : SweepEnv) (now : ℕ) (clock : ℕ → ℕ)

def ArpOp.run : ArpOp → ArpCache → Except LockFault ArpCache
  | .lookup ip4, c => do
    let (_, c) ← arpcacheLookup ip4 c
    .ok c
  | .append iface ip4 pkt now, c => arpcacheAppendPacket iface ip4 pkt now c
  | .insert ip4 mac now, c => arpcacheInsert ip4 mac now c
  | .sweep env now clock, c => arpcacheSweep env now clock c

/-- After `arpcache_init`. -/
def ArpCache.Initial (c : ArpCache) : Prop :=
  (∀ i, (c.entries i).valid = false) ∧ c.reqList = [] ∧ c.locked = false

/-- The operation comes back, with the lock released. -/
def Disciplined (c : ArpCache) (op : ArpOp) : Prop :=
  ∃ c', op.run c = .ok c' ∧ c'.locked = false

/-- A sweep gives up no request: each was sent at most a second ago, or has a retry left. -/
def GivesUpNone (c : ArpCache) : ArpOp → Prop
  | .sweep _ _ clock => ∀ k req, c.reqList[k]? = some req →
    clock k ≤ req.sent + 1 ∨ 1 < req.retries
  | _ => True

end Model

section Operations

variable {c c' : ArpCache}

/-- Between two operations the lock is free, and every request has a packet. -/
structure ArpCache.Settled (c : ArpCache) : Prop where
  unlocked : c.locked = false
  waiting : ∀ req ∈ c.reqList, req.cachedPackets ≠ []

theorem ok_bind {α β : Type} (a : α) (f : α → Except LockFault β) : (.ok a >>= f) = f a := rfl

theorem lock_of_unlocked (h : c.locked = false) : lock c = .ok { c with locked := true } := by
  rw [lock, h]
  rfl

theorem lock_of_locked (h : c.locked = true) : lock c = .error .relock := by
  rw [lock, h]
  rfl

theorem arpcacheLookup_run (h : c.locked = false) (ip4 : UInt32) :
    arpcacheLookup ip4 c = .ok (Arp.arpcacheLookup c.entries ip4, c) := by
  rw [arpcacheLookup, lock_of_unlocked h]
  cases c
  cases h
  rfl

theorem appendFound_waiting {iface : IfaceInfo} {ip4 : UInt32} {pkt : CachedPkt}
    {reqs reqs' : List ArpReq} (h : appendFound iface ip4 pkt reqs = some reqs')
    (hwaiting : ∀ req ∈ reqs, req.cachedPackets ≠ []) : ∀ req ∈ reqs', req.cachedPackets ≠ [] := by
  induction reqs generalizing reqs' with
  | nil => cases h
  | cons req reqs ih =>
    obtain ⟨hreq, hreqs⟩ := List.forall_mem_cons.mp hwaiting
    rw [appendFound] at h
    split_ifs at h with hkey
    · rw [← Option.some.inj h]
      exact List.forall_mem_cons.mpr ⟨by simp, hreqs⟩
    · obtain ⟨rest, hrest, rfl⟩ := Option.map_eq_some_iff.mp h
      exact List.forall_mem_cons.mpr ⟨hreq, ih hrest hreqs⟩

theorem arpcacheAppendPacket_run (h : c.Settled) (iface : IfaceInfo) (ip4 : UInt32)
    (pkt : CachedPkt) (now : ℕ) :
    ∃ c', arpcacheAppendPacket iface ip4 pkt now c = .ok c' ∧ c'.Settled := by
  rw [arpcacheAppendPacket, lock_of_unlocked h.unlocked]
  cases hfound : appendFound iface ip4 pkt c.reqList with
  | some reqList =>
    refine ⟨unlock { c with locked := true, reqList := reqList }, ?_, rfl,
      appendFound_waiting hfound h.waiting⟩
    simp only [ok_bind, hfound]
  | none =>
    refine ⟨_, by simp only [ok_bind, hfound]; rfl, rfl, fun req hreq => ?_⟩
    rcases List.mem_append.mp hreq with hreq | hreq
    · exact h.waiting req hreq
    · rw [List.mem_singleton.mp hreq]
      exact List.cons_ne_nil _ _

theorem arpcacheInsert_run (h : c.Settled) (ip4 : UInt32) (mac : Vector UInt8 6) (now : ℕ) :
    ∃ c', arpcacheInsert ip4 mac now c = .ok c' ∧ c'.Settled := by
  rw [arpcacheInsert, lock_of_unlocked h.unlocked]
  cases hfound : c.reqList.find? fun req => decide (req.ip4 = ip4) with
  | none =>
    refine ⟨_, by simp only [ok_bind, hfound]; rfl, rfl, fun req hreq => ?_⟩
    exact h.waiting req hreq
  | some req =>
    refine ⟨_, by simp only [ok_bind, hfound]; rfl, rfl, fun req hreq => ?_⟩
    exact h.waiting req (List.mem_of_mem_eraseP hreq)

end Operations

section Sweep

variable {env : SweepEnv} {c : ArpCache}

/-- A report cannot be sent while the lock is held. -/
theorem sweepPkts_locked (env : SweepEnv) (h : c.locked = true) {pkts : List CachedPkt}
    (hpkts : pkts ≠ []) (now : ℕ) : ∃ fault, sweepPkts env now pkts c = .error fault := by
  obtain ⟨pkt, pkts, rfl⟩ := List.exists_cons_of_ne_nil hpkts
  rw [sweepPkts]
  cases icmpSendPacket env.rtable env.memory pkt.packet pkt.len icmpDestUnreach icmpHostUnreach
    env.id with
  | none => exact ⟨_, rfl⟩
  | some out =>
    refine ⟨.relock, ?_⟩
    simp only [ifaceSendPacketByArp, arpcacheLookup, lock_of_locked h]
    rfl

/-- What the second loop does to its first request. -/
theorem forall_getElem?_cons {P : ℕ → ArpReq → Prop} {req : ArpReq} {reqs : List ArpReq} :
    (∀ k req', (req :: reqs)[k]? = some req' → P k req') ↔
      P 0 req ∧ ∀ k req', reqs[k]? = some req' → P (k + 1) req' := by
  constructor
  · exact fun h => ⟨h 0 req rfl, fun k req' hreq => h (k + 1) req' hreq⟩
  · rintro ⟨hfirst, hrest⟩ k req' hreq
    cases k with
    | zero => exact Option.some.inj hreq ▸ hfirst
    | succ k => exact hrest k req' hreq

/-- A sweep that gives up no request ends. -/
theorem sweepReqs_of_kept (env : SweepEnv) {reqs : List ArpReq} {clock : ℕ → ℕ}
    (h : ∀ k req, reqs[k]? = some req → clock k ≤ req.sent + 1 ∨ 1 < req.retries)
    (hwaiting : ∀ req ∈ reqs, req.cachedPackets ≠ []) (c : ArpCache) :
    ∃ kept c', sweepReqs env clock reqs c = .ok (kept, c') ∧
      ∀ req ∈ kept, req.cachedPackets ≠ [] := by
  induction reqs generalizing clock c with
  | nil => exact ⟨[], c, rfl, hwaiting⟩
  | cons req reqs ih =>
    obtain ⟨hfirst, hrest⟩ := forall_getElem?_cons.mp h
    obtain ⟨hreq, hreqs⟩ := List.forall_mem_cons.mp hwaiting
    rw [sweepReqs]
    by_cases hdue : (clock 0 : ℤ) - req.sent > 1
    · have hleft : (0 : ℤ) < req.retries - 1 := by omega
      obtain ⟨kept, c', hrun, hkept⟩ := ih hrest hreqs (send (.arpRequest req.iface req.ip4) c)
      refine ⟨{ req with sent := clock 0, retries := req.retries - 1 } :: kept, c', ?_,
        List.forall_mem_cons.mpr ⟨hreq, hkept⟩⟩
      simp only [if_pos hdue, if_pos hleft, hrun, ok_bind]
    · obtain ⟨kept, c', hrun, hkept⟩ := ih hrest hreqs c
      refine ⟨req :: kept, c', ?_, List.forall_mem_cons.mpr ⟨hreq, hkept⟩⟩
      simp only [if_neg hdue, hrun, ok_bind]

theorem error_bind {α β : Type} (fault : LockFault) (f : α → Except LockFault β) :
    (.error fault >>= f) = .error fault := rfl

/-- A sweep that gives up a request does not come back. -/
theorem sweepReqs_of_given_up (env : SweepEnv) {reqs : List ArpReq} {clock : ℕ → ℕ}
    (h : ¬∀ k req, reqs[k]? = some req → clock k ≤ req.sent + 1 ∨ 1 < req.retries)
    (hwaiting : ∀ req ∈ reqs, req.cachedPackets ≠ []) (hlocked : c.locked = true) :
    ∃ fault, sweepReqs env clock reqs c = .error fault := by
  induction reqs generalizing clock c with
  | nil => exact absurd (fun k req hreq => by simp at hreq) h
  | cons req reqs ih =>
    rw [forall_getElem?_cons, not_and_or] at h
    obtain ⟨hreq, hreqs⟩ := List.forall_mem_cons.mp hwaiting
    rw [sweepReqs]
    by_cases hdue : (clock 0 : ℤ) - req.sent > 1
    · by_cases hleft : (0 : ℤ) < req.retries - 1
      · have hrest := h.resolve_left (not_not.mpr (.inr (by omega)))
        obtain ⟨fault, hrun⟩ := ih hrest hreqs
          (c := send (.arpRequest req.iface req.ip4) c) hlocked
        exact ⟨fault, by simp only [if_pos hdue, if_pos hleft, hrun, error_bind]⟩
      · obtain ⟨fault, hrun⟩ := sweepPkts_locked env hlocked hreq (clock 0)
        exact ⟨fault, by simp only [if_pos hdue, if_neg hleft, hrun, error_bind]⟩
    · have hrest := h.resolve_left (not_not.mpr (.inl (by omega)))
      obtain ⟨fault, hrun⟩ := ih hrest hreqs hlocked
      exact ⟨fault, by simp only [if_neg hdue, hrun, error_bind]⟩

end Sweep

section Runs

variable {c : ArpCache}

/-- A call that comes back leaves the cache settled, and it does so unless it gives up a
request. -/
theorem ArpCache.Settled.run (h : c.Settled) (op : ArpOp) :
    (GivesUpNone c op → ∃ c', op.run c = .ok c' ∧ c'.Settled) ∧
      (¬GivesUpNone c op → ∃ fault, op.run c = .error fault) := by
  cases op with
  | lookup ip4 =>
    refine ⟨fun _ => ⟨c, ?_, h⟩, fun hnot => absurd trivial hnot⟩
    rw [ArpOp.run, arpcacheLookup_run h.unlocked]
    rfl
  | append iface ip4 pkt now =>
    exact ⟨fun _ => arpcacheAppendPacket_run h iface ip4 pkt now, fun hnot => absurd trivial hnot⟩
  | insert ip4 mac now =>
    exact ⟨fun _ => arpcacheInsert_run h ip4 mac now, fun hnot => absurd trivial hnot⟩
  | sweep env now clock =>
    rw [ArpOp.run, arpcacheSweep, lock_of_unlocked h.unlocked]
    constructor
    · intro hkept
      obtain ⟨kept, c', hrun, hwaiting⟩ := sweepReqs_of_kept env hkept h.waiting
        { c with locked := true, entries := ageEntries c.entries now }
      exact ⟨unlock { c' with reqList := kept }, by simp only [ok_bind, hrun], rfl, hwaiting⟩
    · intro hnot
      obtain ⟨fault, hrun⟩ := sweepReqs_of_given_up env hnot h.waiting
        (c := { c with locked := true, entries := ageEntries c.entries now }) rfl
      exact ⟨fault, by simp only [ok_bind, hrun, error_bind]⟩

theorem settled_of_reaches
    (h : Reaches (fun c op => (ArpOp.run op c).toOption) anyStep ArpCache.Initial c) :
    c.Settled := by
  refine h.invariant ArpCache.Settled (fun c hc => ⟨hc.2.2, ?_⟩) ?_
  · rw [hc.2.1]
    exact fun req hreq => absurd hreq List.not_mem_nil
  · intro c op c' hc _ hstep
    by_cases hkept : GivesUpNone c op
    · obtain ⟨c'', hrun, hsettled⟩ := (hc.run op).1 hkept
      rw [hrun] at hstep
      exact Option.some.inj hstep ▸ hsettled
    · obtain ⟨fault, hrun⟩ := (hc.run op).2 hkept
      rw [hrun] at hstep
      cases hstep

/-- In every reachable state an operation comes back with the lock released if and only if it is
not a sweep that gives up a request. -/
theorem disciplined_iff
    (h : Reaches (fun c op => (ArpOp.run op c).toOption) anyStep ArpCache.Initial c)
    (op : ArpOp) : Disciplined c op ↔ GivesUpNone c op := by
  have hsettled := settled_of_reaches h
  constructor
  · rintro ⟨c', hrun, -⟩
    by_contra hnot
    obtain ⟨fault, hfault⟩ := (hsettled.run op).2 hnot
    rw [hrun] at hfault
    cases hfault
  · intro hkept
    obtain ⟨c', hrun, hc'⟩ := (hsettled.run op).1 hkept
    exact ⟨c', hrun, hc'.unlocked⟩

def emptyCache : ArpCache := ⟨fun _ => ⟨0, Vector.replicate 6 0, 0, false⟩, [], false, []⟩

theorem initial_emptyCache : emptyCache.Initial := ⟨fun _ => rfl, rfl, rfl⟩

def leftIface : IfaceInfo := ⟨1, Vector.replicate 6 1, 0x0a000101⟩

def rightIface : IfaceInfo := ⟨2, Vector.replicate 6 2, 0x0a000201⟩

def twoRoutes : SweepEnv where
  rtable := [⟨0x0a000100, prefixMask 24, 0, leftIface⟩, ⟨0x0a000200, prefixMask 24, 0, rightIface⟩]
  memory := fun _ => 0
  id := 0

/-- A packet without data from 10.0.1.11 to 10.0.2.22. -/
def transit : CachedPkt where
  packet := bytesAt (List.replicate 12 0 ++ [8, 0] ++
    [0x45, 0, 0, 28, 0, 1, 0x40, 0, 63, 1, 0x24, 0xc0, 10, 0, 1, 11, 10, 0, 2, 22] ++
    [8, 0, 0xf7, 0xfd, 0, 1, 0, 1])
  len := 42

/-- The packet waits for the address of 10.0.2.22. -/
def pendingCache : ArpCache :=
  { emptyCache with
    reqList := [⟨rightIface, 0x0a000216, 0, 5, [transit]⟩]
    frames := [.arpRequest rightIface 0x0a000216] }

theorem disciplined_sweep : Disciplined pendingCache (.sweep twoRoutes 2 fun _ => 2) := by
  refine (disciplined_iff (.next (e := .append rightIface 0x0a000216 transit 0)
    (.start initial_emptyCache) trivial rfl) _).mpr fun k req hreq => .inr ?_
  rw [List.mem_singleton.mp (List.mem_of_getElem? hreq)]
  decide

/-- 10.0.2.22 does not answer: the sweep at ten seconds gives its request up. -/
theorem sweep_relocks : ∃ c op,
    Reaches (fun c op => (ArpOp.run op c).toOption) anyStep ArpCache.Initial c ∧
      op.run c = .error .relock ∧ ¬Disciplined c op := by
  obtain ⟨c, hc, hfault⟩ : ∃ c,
      Reaches (fun c op => (ArpOp.run op c).toOption) anyStep ArpCache.Initial c ∧
        (match ArpOp.run (.sweep twoRoutes 10 fun _ => 10) c with
          | .error fault => some fault
          | .ok _ => none) = some LockFault.relock :=
    exists_of_exec initial_emptyCache (.append rightIface 0x0a000216 transit 0 ::
      [2, 4, 6, 8].map fun now => .sweep twoRoutes now fun _ => now) _ (by decide +kernel)
  cases hrun : ArpOp.run (.sweep twoRoutes 10 fun _ => 10) c with
  | error fault =>
    rw [hrun] at hfault
    obtain rfl := Option.some.inj hfault
    refine ⟨c, _, hc, hrun, ?_⟩
    rintro ⟨c', hok, -⟩
    rw [hrun] at hok
    cases hok
  | ok c' =>
    rw [hrun] at hfault
    cases hfault

end Runs

end NetworkLab.Router
