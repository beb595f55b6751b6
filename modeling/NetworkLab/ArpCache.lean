import Mathlib.Tactic
import NetworkLab.GuardedRuns

/-!
# Packets that wait for an ARP reply

`arpcache.c`: packets are appended to the request for their interface and address, sent when an
entry for the address is inserted, and reported as unreachable by the sweep. The sweep takes
packets off the requests while it holds the lock and reports them after that, and the first ARP
request of a packet goes out after the lock has been released.
-/
namespace NetworkLab.Arp
open GuardedRuns

variable {μ π : Type*}

section Model

/-- `MAX_ARP_SIZE`. -/
def maxArpSize : ℕ := 32

instance : NeZero maxArpSize := ⟨by decide⟩

/-- `ARP_ENTRY_TIMEOUT`. -/
def arpEntryTimeout : ℤ := 15

/-- `ARP_REQUEST_MAX_RETRIES`. -/
def arpRequestMaxRetries : ℕ := 5

structure ArpCacheEntry (μ : Type*) where
  ip4 : UInt32
  mac : μ
  added : ℤ
  valid : Bool

/-- A request; the interface is given by its index, and `serial` tells apart the requests of a
run. -/
structure ArpReq (π : Type*) where
  iface : ℤ
  ip4 : UInt32
  sent : ℤ
  retries : ℕ
  cachedPackets : List π
  serial : ℕ

/-- What a request is searched by. -/
def ArpReq.key (req : ArpReq π) : ℤ × UInt32 := (req.iface, req.ip4)

/-- The request with one more packet. -/
def ArpReq.push (req : ArpReq π) (packet : π) : ArpReq π :=
  { req with cachedPackets := req.cachedPackets ++ [packet] }

@[simp] theorem key_push (req : ArpReq π) (packet : π) : (req.push packet).key = req.key := rfl

/-- `arpcache_append_packet` on a list that has a request for the packet. -/
def appendFound (iface : ℤ) (ip4 : UInt32) (packet : π) :
    List (ArpReq π) → Option (List (ArpReq π))
  | [] => none
  | req :: reqs =>
    if req.iface = iface ∧ req.ip4 = ip4 then some (req.push packet :: reqs)
    else (appendFound iface ip4 packet reqs).map (req :: ·)

/-- The first part of `arpcache_insert`. Where all entries are valid the new one is written to
`entries[-1]`, the place in front of the table, which is taken to leave the table as it is. -/
def insertEntry (entries : Fin maxArpSize → ArpCacheEntry μ) (ip4 : UInt32) (mac : μ) (now : ℤ)
    (rand : ℕ) : Fin maxArpSize → ArpCacheEntry μ :=
  if ∃ i, (entries i).valid = true ∧ (entries i).ip4 = ip4 then
    fun i =>
      if (entries i).valid = true ∧ (entries i).ip4 = ip4 then
        { entries i with mac := mac, added := now }
      else entries i
  else if ∃ i, (entries i).valid = false then
    Function.update entries (Fin.ofNat maxArpSize rand) ⟨ip4, mac, now, true⟩
  else entries

/-- The first loop of `arpcache_sweep`. -/
def expireEntries (entries : Fin maxArpSize → ArpCacheEntry μ) (now : ℤ) :
    Fin maxArpSize → ArpCacheEntry μ :=
  fun i =>
    if (entries i).valid = true ∧ arpEntryTimeout ≤ now - (entries i).added then
      { entries i with valid := false }
    else entries i

/-- The second loop of `arpcache_sweep`: the requests that are left, the packets of those that
have been given up, and the requests for which an ARP request is sent again. -/
def sweepReqs (now : ℤ) : List (ArpReq π) → List (ArpReq π) × List π × List ℕ
  | [] => ([], [], [])
  | req :: reqs =>
    let (kept, pktList, again) := sweepReqs now reqs
    if now - req.sent < 1 then (req :: kept, pktList, again)
    else if req.retries < arpRequestMaxRetries then
      ({ req with retries := req.retries + 1 } :: kept, pktList, req.serial :: again)
    else (kept, req.cachedPackets ++ pktList, again)

/-- A packet that has been sent, with the request that it waited in. -/
structure SentPkt (μ π : Type*) where
  key : ℤ × UInt32
  packet : π
  mac : μ

/-- The cache, what the sweep has not reported yet, the requests whose first ARP request is
still to be sent, and what has happened to packets and requests. -/
structure World (μ π : Type*) where
  entries : Fin maxArpSize → ArpCacheEntry μ
  reqList : List (ArpReq π)
  pktList : List π
  toRequest : List ℕ
  nextSerial : ℕ
  appended : List ((ℤ × UInt32) × π)
  sent : List (SentPkt μ π)
  reported : List π
  requests : List ℕ

inductive Event (μ π : Type*)
  | append (iface : ℤ) (ip4 : UInt32) (packet : π) (now : ℤ)
  /-- The end of an append that has made a request. -/
  | request (serial : ℕ)
  | insert (ip4 : UInt32) (mac : μ) (now : ℤ) (rand : ℕ)
  | sweep (now : ℤ)
  /-- The last loop of the sweep takes the next packet. -/
  | report

def World.step (s : World μ π) : Event μ π → Option (World μ π)
  | .append iface ip4 packet now =>
    let appended := s.appended ++ [((iface, ip4), packet)]
    match appendFound iface ip4 packet s.reqList with
    | some reqList => some { s with reqList := reqList, appended := appended }
    | none => some { s with
        reqList := ⟨iface, ip4, now, 1, [packet], s.nextSerial⟩ :: s.reqList
        toRequest := s.nextSerial :: s.toRequest
        nextSerial := s.nextSerial + 1
        appended := appended }
  | .request serial =>
    if serial ∈ s.toRequest then
      some { s with
        toRequest := s.toRequest.erase serial, requests := s.requests ++ [serial] }
    else none
  | .insert ip4 mac now rand =>
    let entries := insertEntry s.entries ip4 mac now rand
    match s.reqList.find? fun req => decide (req.ip4 = ip4) with
    | some req => some { s with
        entries := entries
        reqList := s.reqList.eraseP fun req => decide (req.ip4 = ip4)
        sent := s.sent ++ req.cachedPackets.map fun packet => ⟨req.key, packet, mac⟩ }
    | none => some { s with entries := entries }
  | .sweep now =>
    match s.pktList with
    | [] =>
      let (kept, pktList, again) := sweepReqs now s.reqList
      some { s with
        entries := expireEntries s.entries now
        reqList := kept
        pktList := pktList
        requests := s.requests ++ again }
    | _ :: _ => none
  | .report =>
    match s.pktList with
    | [] => none
    | packet :: pktList => some { s with
        pktList := pktList, reported := s.reported ++ [packet] }

/-- After `arpcache_init`. -/
def World.Initial (s : World μ π) : Prop :=
  s.reqList = [] ∧ s.pktList = [] ∧ s.toRequest = [] ∧ s.appended = [] ∧ s.sent = [] ∧
    s.reported = [] ∧ s.requests = []

end Model

section Pending

variable {reqs pre post : List (ArpReq π)} {req : ArpReq π} {key : ℤ × UInt32}

/-- The packets that wait for an address on an interface. -/
def pendingOf (key : ℤ × UInt32) (reqs : List (ArpReq π)) : List π :=
  (reqs.filter fun req => decide (req.key = key)).flatMap (·.cachedPackets)

theorem pendingOf_append (key : ℤ × UInt32) (reqs reqs' : List (ArpReq π)) :
    pendingOf key (reqs ++ reqs') = pendingOf key reqs ++ pendingOf key reqs' := by
  rw [pendingOf, List.filter_append, List.flatMap_append]
  rfl

theorem pendingOf_cons (key : ℤ × UInt32) (req : ArpReq π) (reqs : List (ArpReq π)) :
    pendingOf key (req :: reqs) =
      (if req.key = key then req.cachedPackets else []) ++ pendingOf key reqs := by
  by_cases h : req.key = key
  · rw [pendingOf, List.filter_cons_of_pos (by simpa using h), if_pos h]
    rfl
  · rw [pendingOf, List.filter_cons_of_neg (by simpa using h), if_neg h]
    rfl

theorem pendingOf_eq_nil (h : key ∉ reqs.map ArpReq.key) : pendingOf key reqs = [] := by
  induction reqs with
  | nil => rfl
  | cons req reqs ih =>
    rw [List.map_cons, List.mem_cons, not_or] at h
    obtain ⟨hne, hrest⟩ := h
    rw [pendingOf_cons, if_neg (Ne.symm hne), ih hrest]
    rfl

/-- A request among others with other keys. -/
theorem pendingOf_middle (h : ((pre ++ req :: post).map ArpReq.key).Nodup) (key : ℤ × UInt32) :
    pendingOf key (pre ++ req :: post) =
      if req.key = key then req.cachedPackets else pendingOf key (pre ++ post) := by
  rw [List.map_append, List.map_cons, List.nodup_append] at h
  obtain ⟨-, hpost, hapart⟩ := h
  rw [pendingOf_append, pendingOf_cons]
  by_cases hkey : req.key = key
  · subst hkey
    have hpre : req.key ∉ pre.map ArpReq.key := fun hin =>
      hapart _ hin _ List.mem_cons_self rfl
    rw [if_pos rfl, if_pos rfl, pendingOf_eq_nil hpre,
      pendingOf_eq_nil (List.nodup_cons.mp hpost).1, List.nil_append, List.append_nil]
  · rw [if_neg hkey, if_neg hkey, pendingOf_append]
    rfl

/-- With the same keys the rest does not matter. -/
theorem pendingOf_removed (h : ((pre ++ req :: post).map ArpReq.key).Nodup) :
    pendingOf req.key (pre ++ post) = [] := by
  rw [List.map_append, List.map_cons, List.nodup_append] at h
  obtain ⟨-, hpost, hapart⟩ := h
  rw [pendingOf_append, pendingOf_eq_nil fun hin => hapart _ hin _ List.mem_cons_self rfl,
    pendingOf_eq_nil (List.nodup_cons.mp hpost).1]
  rfl

/-- The request that a packet is appended to. -/
theorem appendFound_eq_some {iface : ℤ} {ip4 : UInt32} {packet : π} {reqs' : List (ArpReq π)}
    (h : appendFound iface ip4 packet reqs = some reqs') :
    ∃ pre req post, reqs = pre ++ req :: post ∧ req.key = (iface, ip4) ∧
      reqs' = pre ++ req.push packet :: post := by
  induction reqs generalizing reqs' with
  | nil => cases h
  | cons first reqs ih =>
    rw [appendFound] at h
    by_cases hkey : first.iface = iface ∧ first.ip4 = ip4
    · rw [if_pos hkey] at h
      exact ⟨[], first, reqs, rfl, Prod.ext hkey.1 hkey.2, (Option.some.inj h).symm⟩
    · rw [if_neg hkey, Option.map_eq_some_iff] at h
      obtain ⟨reqs₁, hfound, rfl⟩ := h
      obtain ⟨pre, req, post, rfl, hreq, rfl⟩ := ih hfound
      exact ⟨first :: pre, req, post, rfl, hreq, rfl⟩

theorem appendFound_eq_none {iface : ℤ} {ip4 : UInt32} {packet : π}
    (h : appendFound iface ip4 packet reqs = none) : (iface, ip4) ∉ reqs.map ArpReq.key := by
  induction reqs with
  | nil => exact List.not_mem_nil
  | cons first reqs ih =>
    rw [appendFound] at h
    by_cases hkey : first.iface = iface ∧ first.ip4 = ip4
    · rw [if_pos hkey] at h
      cases h
    · rw [if_neg hkey, Option.map_eq_none_iff] at h
      rw [List.map_cons, List.mem_cons, not_or]
      refine ⟨fun heq => hkey ?_, ih h⟩
      obtain ⟨hiface, hip⟩ := Prod.mk.inj heq
      exact ⟨hiface.symm, hip.symm⟩

/-- The request that an insertion flushes. -/
theorem flush_cases {ip4 : UInt32}
    (h : reqs.find? (fun req => decide (req.ip4 = ip4)) = some req) :
    ∃ pre post, reqs = pre ++ req :: post ∧
      reqs.eraseP (fun req => decide (req.ip4 = ip4)) = pre ++ post := by
  obtain ⟨hreq, pre, post, rfl, hpre⟩ := List.find?_eq_some_iff_append.mp h
  refine ⟨pre, post, rfl, ?_⟩
  rw [List.eraseP_append_right _ (fun b hb => by simpa using hpre b hb)]
  exact congrArg (pre ++ ·) (List.eraseP_cons_of_pos hreq)

end Pending

section Sweep

variable {reqs : List (ArpReq π)}

/-- What the sweep does with its first request. -/
theorem sweepReqs_cons (now : ℤ) (req : ArpReq π) (reqs : List (ArpReq π)) :
    sweepReqs now (req :: reqs) =
      if now - req.sent < 1 then
        (req :: (sweepReqs now reqs).1, (sweepReqs now reqs).2.1, (sweepReqs now reqs).2.2)
      else if req.retries < arpRequestMaxRetries then
        ({ req with retries := req.retries + 1 } :: (sweepReqs now reqs).1,
          (sweepReqs now reqs).2.1, req.serial :: (sweepReqs now reqs).2.2)
      else ((sweepReqs now reqs).1, req.cachedPackets ++ (sweepReqs now reqs).2.1,
        (sweepReqs now reqs).2.2) := rfl

/-- No packet is lost in the sweep. -/
theorem perm_sweepReqs (now : ℤ) (reqs : List (ArpReq π)) :
    (reqs.flatMap (·.cachedPackets)).Perm
      ((sweepReqs now reqs).2.1 ++ (sweepReqs now reqs).1.flatMap (·.cachedPackets)) := by
  induction reqs with
  | nil => exact .refl _
  | cons req reqs ih =>
    rw [sweepReqs_cons, List.flatMap_cons]
    have hkept : (req.cachedPackets ++ reqs.flatMap (·.cachedPackets)).Perm
        ((sweepReqs now reqs).2.1 ++
          (req.cachedPackets ++ (sweepReqs now reqs).1.flatMap (·.cachedPackets))) :=
      (ih.append_left _).trans (List.perm_append_comm_assoc _ _ _)
    split_ifs
    · exact hkept
    · exact hkept
    · rw [List.append_assoc]
      exact ih.append_left _

/-- The requests that are left are in the old order, with their keys and serial numbers, and so
are those that are asked for again. -/
theorem sublist_sweepReqs (now : ℤ) (reqs : List (ArpReq π)) :
    ((sweepReqs now reqs).1.map ArpReq.key).Sublist (reqs.map ArpReq.key) ∧
      ((sweepReqs now reqs).1.map (·.serial)).Sublist (reqs.map (·.serial)) ∧
      (sweepReqs now reqs).2.2.Sublist (reqs.map (·.serial)) ∧
      ∀ key, (pendingOf key (sweepReqs now reqs).1).Sublist (pendingOf key reqs) := by
  induction reqs with
  | nil => exact ⟨.refl _, .refl _, .refl _, fun _ => .refl _⟩
  | cons req reqs ih =>
    obtain ⟨hkey, hserial, hagain, hpending⟩ := ih
    rw [sweepReqs_cons]
    split_ifs
    · refine ⟨hkey.cons_cons _, hserial.cons_cons _, hagain.cons _, fun key => ?_⟩
      rw [pendingOf_cons, pendingOf_cons]
      exact (hpending key).append_left _
    · refine ⟨hkey.cons_cons _, hserial.cons_cons _, hagain.cons_cons _, fun key => ?_⟩
      rw [pendingOf_cons, pendingOf_cons]
      exact (hpending key).append_left _
    · refine ⟨hkey.cons _, hserial.cons _, hagain.cons _, fun key => ?_⟩
      rw [pendingOf_cons]
      exact (hpending key).trans (List.sublist_append_right _ _)

/-- The retries of a request that is left count the ARP request that may be sent for it. -/
theorem retries_sweepReqs (now : ℤ) (hserial : (reqs.map (·.serial)).Nodup) :
    (∀ req' ∈ (sweepReqs now reqs).1, ∃ req ∈ reqs, req'.serial = req.serial ∧
      req'.retries = req.retries + (sweepReqs now reqs).2.2.count req.serial ∧
      (req.retries ≤ arpRequestMaxRetries → req'.retries ≤ arpRequestMaxRetries)) ∧
    ∀ n ∈ (sweepReqs now reqs).2.2, ∃ req ∈ reqs, req.serial = n ∧
      req.retries < arpRequestMaxRetries := by
  induction reqs with
  | nil => exact ⟨fun req h => absurd h List.not_mem_nil, fun n h => absurd h List.not_mem_nil⟩
  | cons req reqs ih =>
    obtain ⟨hnew, hrest⟩ := List.nodup_cons.mp hserial
    obtain ⟨hkept, hagain⟩ := ih hrest
    have hnotin : req.serial ∉ (sweepReqs now reqs).2.2 := fun hin =>
      hnew ((sublist_sweepReqs now reqs).2.2.1.subset hin)
    have hzero : (sweepReqs now reqs).2.2.count req.serial = 0 := List.count_eq_zero.mpr hnotin
    have hagain' (n : ℕ) (hn : n ∈ (sweepReqs now reqs).2.2) : ∃ r ∈ req :: reqs, r.serial = n ∧
        r.retries < arpRequestMaxRetries := by
      obtain ⟨r, hr, hsame⟩ := hagain n hn
      exact ⟨r, List.mem_cons_of_mem _ hr, hsame⟩
    rw [sweepReqs_cons]
    split_ifs with hnow hretries
    · refine ⟨fun req' hreq' => ?_, hagain'⟩
      rcases List.mem_cons.mp hreq' with rfl | hold
      · exact ⟨req', List.mem_cons_self, rfl, by rw [hzero, Nat.add_zero], id⟩
      · obtain ⟨r, hr, hsame⟩ := hkept req' hold
        exact ⟨r, List.mem_cons_of_mem _ hr, hsame⟩
    · refine ⟨fun req' hreq' => ?_, fun n hn => ?_⟩
      · rcases List.mem_cons.mp hreq' with rfl | hold
        · refine ⟨req, List.mem_cons_self, rfl, ?_, fun _ => hretries⟩
          rw [List.count_cons_self, hzero]
        · obtain ⟨r, hr, hsame, hcount, hle⟩ := hkept req' hold
          have hne : req.serial ≠ r.serial := fun heq =>
            hnew (List.mem_map.mpr ⟨r, hr, heq.symm⟩)
          refine ⟨r, List.mem_cons_of_mem _ hr, hsame, ?_, hle⟩
          rw [List.count_cons_of_ne hne]
          exact hcount
      · rcases List.mem_cons.mp hn with rfl | hold
        · exact ⟨req, List.mem_cons_self, rfl, hretries⟩
        · exact hagain' n hold
    · refine ⟨fun req' hreq' => ?_, hagain'⟩
      obtain ⟨r, hr, hsame⟩ := hkept req' hreq'
      exact ⟨r, List.mem_cons_of_mem _ hr, hsame⟩

end Sweep

section Steps

variable {s t : World μ π}

/-- What one step can do. -/
inductive World.Stepped (s : World μ π) : World μ π → Prop
  | appendFound {pre post : List (ArpReq π)} {req : ArpReq π} (packet : π)
      (hreqs : s.reqList = pre ++ req :: post) :
      World.Stepped s { s with
        reqList := pre ++ req.push packet :: post
        appended := s.appended ++ [(req.key, packet)] }
  | appendNew (iface : ℤ) (ip4 : UInt32) (packet : π) (now : ℤ)
      (hnew : (iface, ip4) ∉ s.reqList.map ArpReq.key) :
      World.Stepped s { s with
        reqList := ⟨iface, ip4, now, 1, [packet], s.nextSerial⟩ :: s.reqList
        toRequest := s.nextSerial :: s.toRequest
        nextSerial := s.nextSerial + 1
        appended := s.appended ++ [((iface, ip4), packet)] }
  | request {serial : ℕ} (hserial : serial ∈ s.toRequest) :
      World.Stepped s { s with
        toRequest := s.toRequest.erase serial
        requests := s.requests ++ [serial] }
  | insert (ip4 : UInt32) (mac : μ) (now : ℤ) (rand : ℕ) :
      World.Stepped s { s with entries := insertEntry s.entries ip4 mac now rand }
  | flush {pre post : List (ArpReq π)} {req : ArpReq π} (ip4 : UInt32) (mac : μ) (now : ℤ)
      (rand : ℕ) (hreqs : s.reqList = pre ++ req :: post) :
      World.Stepped s { s with
        entries := insertEntry s.entries ip4 mac now rand
        reqList := pre ++ post
        sent := s.sent ++ req.cachedPackets.map fun packet => ⟨req.key, packet, mac⟩ }
  | sweep (now : ℤ) (hnone : s.pktList = []) :
      World.Stepped s { s with
        entries := expireEntries s.entries now
        reqList := (sweepReqs now s.reqList).1
        pktList := (sweepReqs now s.reqList).2.1
        requests := s.requests ++ (sweepReqs now s.reqList).2.2 }
  | report {packet : π} {pktList : List π} (hnext : s.pktList = packet :: pktList) :
      World.Stepped s { s with
        pktList := pktList
        reported := s.reported ++ [packet] }

theorem World.stepped {e : Event μ π} (hstep : s.step e = some t) : s.Stepped t := by
  cases e with
  | append iface ip4 packet now =>
    rw [World.step] at hstep
    cases hfound : appendFound iface ip4 packet s.reqList with
    | some reqs =>
      rw [hfound] at hstep
      obtain rfl := Option.some.inj hstep
      obtain ⟨pre, req, post, hreqs, hkey, rfl⟩ := appendFound_eq_some hfound
      rw [← hkey]
      exact .appendFound packet hreqs
    | none =>
      rw [hfound] at hstep
      obtain rfl := Option.some.inj hstep
      exact .appendNew iface ip4 packet now (appendFound_eq_none hfound)
  | request serial =>
    rw [World.step] at hstep
    split_ifs at hstep with hserial
    obtain rfl := Option.some.inj hstep
    exact .request hserial
  | insert ip4 mac now rand =>
    rw [World.step] at hstep
    cases hfind : s.reqList.find? fun req => decide (req.ip4 = ip4) with
    | none =>
      rw [hfind] at hstep
      obtain rfl := Option.some.inj hstep
      exact .insert ip4 mac now rand
    | some req =>
      rw [hfind] at hstep
      obtain rfl := Option.some.inj hstep
      obtain ⟨pre, post, hreqs, herase⟩ := flush_cases hfind
      rw [herase]
      exact .flush ip4 mac now rand hreqs
  | sweep now =>
    rw [World.step] at hstep
    cases hlist : s.pktList with
    | cons packet pktList =>
      rw [hlist] at hstep
      cases hstep
    | nil =>
      rw [hlist] at hstep
      obtain rfl := Option.some.inj hstep
      exact .sweep now hlist
  | report =>
    rw [World.step] at hstep
    cases hlist : s.pktList with
    | nil =>
      rw [hlist] at hstep
      cases hstep
    | cons packet pktList =>
      rw [hlist] at hstep
      obtain rfl := Option.some.inj hstep
      exact .report hlist

end Steps

section Conservation

variable {s t : World μ π} {pre post : List (ArpReq π)} {req : ArpReq π}

/-- Packets are accounted for, and those for one key in the order in which they have come. -/
structure World.Accounted (s : World μ π) : Prop where
  conserved : (s.appended.map Prod.snd : Multiset π) = (s.sent.map (·.packet) : Multiset π) +
    s.reported + s.pktList + (s.reqList.flatMap (·.cachedPackets) : Multiset π)
  keys : (s.reqList.map ArpReq.key).Nodup
  order : ∀ key, ((s.sent.filter fun p => decide (p.key = key)).map (·.packet) ++
    pendingOf key s.reqList).Sublist ((s.appended.filter fun p => decide (p.1 = key)).map Prod.snd)

theorem map_filter_append (key : ℤ × UInt32) (log : List ((ℤ × UInt32) × π))
    (last : (ℤ × UInt32) × π) :
    ((log ++ [last]).filter fun p => decide (p.1 = key)).map Prod.snd =
      (log.filter fun p => decide (p.1 = key)).map Prod.snd ++
        if last.1 = key then [last.2] else [] := by
  rw [List.filter_append, List.map_append]
  by_cases h : last.1 = key
  · rw [if_pos h, List.filter_cons_of_pos (by simpa using h)]
    rfl
  · rw [if_neg h, List.filter_cons_of_neg (by simpa using h)]
    rfl

/-- A packet is added behind those that wait with it. -/
theorem World.Accounted.appendFound {packet : π} (h : s.Accounted)
    (hreqs : s.reqList = pre ++ req :: post) :
    World.Accounted { s with
      reqList := pre ++ req.push packet :: post
      appended := s.appended ++ [(req.key, packet)] } := by
  have hconserved := h.conserved
  have hkeys := h.keys
  rw [hreqs] at hconserved hkeys
  have hkeys' : ((pre ++ req.push packet :: post).map ArpReq.key).Nodup := by
    rw [List.map_append] at hkeys ⊢
    exact hkeys
  refine ⟨?_, hkeys', fun key => ?_⟩
  · simp only [List.map_append, List.flatMap_append, List.flatMap_cons, ← Multiset.coe_add,
      List.map_cons, List.map_nil, ArpReq.push] at hconserved ⊢
    rw [hconserved]
    abel
  · have horder := h.order key
    rw [hreqs, pendingOf_middle hkeys] at horder
    rw [map_filter_append, pendingOf_middle hkeys', key_push]
    by_cases hkey : req.key = key
    · rw [if_pos hkey] at horder
      rw [if_pos hkey, if_pos (show req.key = key from hkey), ArpReq.push, ← List.append_assoc]
      exact horder.append (.refl _)
    · rw [if_neg hkey] at horder
      rw [if_neg hkey, if_neg (show ¬req.key = key from hkey), List.append_nil]
      exact horder

/-- A packet is the first for its key. -/
theorem World.Accounted.appendNew {packet : π} (h : s.Accounted) (req : ArpReq π)
    (hnew : req.key ∉ s.reqList.map ArpReq.key) (hpacket : req.cachedPackets = [packet])
    (toRequest : List ℕ) (nextSerial : ℕ) :
    World.Accounted { s with
      reqList := req :: s.reqList
      toRequest := toRequest
      nextSerial := nextSerial
      appended := s.appended ++ [(req.key, packet)] } := by
  refine ⟨?_, List.nodup_cons.mpr ⟨hnew, h.keys⟩, fun key => ?_⟩
  · have hconserved := h.conserved
    simp only [List.map_append, List.flatMap_cons, hpacket, ← Multiset.coe_add, List.map_cons,
      List.map_nil] at hconserved ⊢
    rw [hconserved]
    abel
  · rw [map_filter_append, pendingOf_cons]
    by_cases hkey : req.key = key
    · have horder := h.order key
      rw [pendingOf_eq_nil (hkey ▸ hnew), List.append_nil] at horder
      rw [if_pos hkey, if_pos (show req.key = key from hkey), pendingOf_eq_nil (hkey ▸ hnew),
        List.append_nil, hpacket]
      exact horder.append (.refl _)
    · rw [if_neg hkey, if_neg (show ¬req.key = key from hkey), List.append_nil, List.nil_append]
      exact h.order key

/-- The packets of a request are sent. -/
theorem World.Accounted.flush (h : s.Accounted) (hreqs : s.reqList = pre ++ req :: post) (mac : μ)
    (entries : Fin maxArpSize → ArpCacheEntry μ) :
    World.Accounted { s with
      entries := entries
      reqList := pre ++ post
      sent := s.sent ++ req.cachedPackets.map fun packet => ⟨req.key, packet, mac⟩ } := by
  have hconserved := h.conserved
  have hkeys := h.keys
  rw [hreqs] at hconserved hkeys
  have hsub : (pre ++ post).Sublist (pre ++ req :: post) :=
    (List.sublist_cons_self req post).append_left pre
  refine ⟨?_, (hsub.map _).nodup hkeys, fun key => ?_⟩
  · have hpackets : (req.cachedPackets.map fun packet => (⟨req.key, packet, mac⟩ :
        SentPkt μ π)).map (·.packet) = req.cachedPackets := by
      rw [List.map_map]
      exact List.map_id _
    simp only [List.map_append, hpackets, List.flatMap_append, List.flatMap_cons,
      ← Multiset.coe_add] at hconserved ⊢
    rw [hconserved]
    abel
  · have horder := h.order key
    rw [hreqs, pendingOf_middle hkeys] at horder
    rw [List.filter_append, List.map_append]
    by_cases hkey : req.key = key
    · rw [if_pos hkey] at horder
      have hall : ((req.cachedPackets.map fun packet => (⟨req.key, packet, mac⟩ :
          SentPkt μ π)).filter fun p => decide (p.key = key)).map (·.packet) =
          req.cachedPackets := by
        rw [List.filter_eq_self.mpr, List.map_map]
        · exact List.map_id _
        · intro p hp
          obtain ⟨packet, -, rfl⟩ := List.mem_map.mp hp
          exact decide_eq_true hkey
      rw [hall, ← hkey, pendingOf_removed hkeys, List.append_nil, hkey]
      exact horder
    · rw [if_neg hkey] at horder
      have hnone : ((req.cachedPackets.map fun packet => (⟨req.key, packet, mac⟩ :
          SentPkt μ π)).filter fun p => decide (p.key = key)) = [] := by
        rw [List.filter_eq_nil_iff]
        intro p hp
        obtain ⟨packet, -, rfl⟩ := List.mem_map.mp hp
        simpa using hkey
      rw [hnone, List.map_nil, List.append_nil]
      exact horder

theorem World.Accounted.step {e : Event μ π} (h : s.Accounted) (hstep : s.step e = some t) :
    t.Accounted := by
  cases World.stepped hstep with
  | appendFound packet hreqs => exact h.appendFound hreqs
  | appendNew iface ip4 packet now hnew =>
    exact h.appendNew ⟨iface, ip4, now, 1, [packet], s.nextSerial⟩ hnew rfl _ _
  | request hserial => exact ⟨h.conserved, h.keys, h.order⟩
  | insert ip4 mac now rand => exact ⟨h.conserved, h.keys, h.order⟩
  | flush ip4 mac now rand hreqs => exact h.flush hreqs mac _
  | sweep now hnone =>
    obtain ⟨hkeys, -, -, hpending⟩ := sublist_sweepReqs now s.reqList
    refine ⟨?_, hkeys.nodup h.keys, fun key => ?_⟩
    · have hconserved := h.conserved
      rw [hnone, Multiset.coe_eq_coe.mpr (perm_sweepReqs now s.reqList), ← Multiset.coe_add,
        Multiset.coe_nil, add_zero, ← add_assoc] at hconserved
      exact hconserved
    · exact ((hpending key).append_left _).trans (h.order key)
  | @report packet pktList hnext =>
    refine ⟨?_, h.keys, h.order⟩
    have hconserved := h.conserved
    rw [hnext, ← Multiset.cons_coe, ← Multiset.singleton_add] at hconserved
    show _ = _ + ((s.reported ++ [packet] : List π) : Multiset π) + (pktList : Multiset π) + _
    rw [hconserved, ← Multiset.coe_add, Multiset.coe_singleton]
    abel

end Conservation

section Requests

variable {s t : World μ π}

/-- A request counts the ARP requests that have been sent for it, together with the one that the
append which has made it is still to send. -/
structure World.Asked (s : World μ π) : Prop where
  serials : (s.reqList.map (·.serial)).Nodup
  counted : ∀ req ∈ s.reqList, (s.requests ++ s.toRequest).count req.serial = req.retries ∧
    req.retries ≤ arpRequestMaxRetries
  bounded : ∀ n, (s.requests ++ s.toRequest).count n ≤ arpRequestMaxRetries
  below : ∀ n ∈ s.reqList.map (·.serial) ++ (s.requests ++ s.toRequest), n < s.nextSerial

/-- Some requests have gone, and no ARP request has been added. -/
theorem World.Asked.shrink (h : s.Asked)
    (hsub : (t.reqList.map fun req => (req.serial, req.retries)).Sublist
      (s.reqList.map fun req => (req.serial, req.retries)))
    (hperm : (t.requests ++ t.toRequest).Perm (s.requests ++ s.toRequest))
    (hnext : t.nextSerial = s.nextSerial) : t.Asked := by
  have hserials : (t.reqList.map (·.serial)).Sublist (s.reqList.map (·.serial)) := by
    have hfst := hsub.map Prod.fst
    rw [List.map_map, List.map_map] at hfst
    exact hfst
  have hmem (req : ArpReq π) (hreq : req ∈ t.reqList) :
      ∃ req' ∈ s.reqList, req'.serial = req.serial ∧ req'.retries = req.retries := by
    have hpair := hsub.subset (List.mem_map_of_mem (f := fun req => (req.serial, req.retries)) hreq)
    obtain ⟨req', hreq', heq⟩ := List.mem_map.mp hpair
    exact ⟨req', hreq', (Prod.mk.inj heq).1, (Prod.mk.inj heq).2⟩
  refine ⟨hserials.nodup h.serials, fun req hreq => ?_, fun n => ?_, fun n hn => ?_⟩
  · obtain ⟨req', hreq', hserial, hretries⟩ := hmem req hreq
    rw [hperm.count_eq, ← hserial, ← hretries]
    exact h.counted req' hreq'
  · rw [hperm.count_eq]
    exact h.bounded n
  · rw [hnext]
    apply h.below n
    rcases List.mem_append.mp hn with hreq | hlog
    · exact List.mem_append_left _ (hserials.subset hreq)
    · exact List.mem_append_right _ (hperm.mem_iff.mp hlog)

theorem World.Asked.appendNew (h : s.Asked) (iface : ℤ) (ip4 : UInt32) (packet : π) (now : ℤ)
    (appended : List ((ℤ × UInt32) × π)) :
    World.Asked { s with
      reqList := ⟨iface, ip4, now, 1, [packet], s.nextSerial⟩ :: s.reqList
      toRequest := s.nextSerial :: s.toRequest
      nextSerial := s.nextSerial + 1
      appended := appended } := by
  have hperm : (s.requests ++ s.nextSerial :: s.toRequest).Perm
      (s.nextSerial :: (s.requests ++ s.toRequest)) := List.perm_middle
  -- The serial number has not been used before.
  have hnone : (s.requests ++ s.toRequest).count s.nextSerial = 0 :=
    List.count_eq_zero.mpr fun hin =>
      absurd (h.below _ (List.mem_append_right _ hin)) (lt_irrefl _)
  have hnew (req : ArpReq π) (hreq : req ∈ s.reqList) : s.nextSerial ≠ req.serial := by
    have hlt := h.below req.serial (List.mem_append_left _ (List.mem_map_of_mem hreq))
    omega
  refine ⟨?_, fun req hreq => ?_, fun n => ?_, fun n hn => ?_⟩
  · refine List.nodup_cons.mpr ⟨fun hin => ?_, h.serials⟩
    obtain ⟨req, hreq, heq⟩ := List.mem_map.mp hin
    exact hnew req hreq heq.symm
  · rw [hperm.count_eq]
    rcases List.mem_cons.mp hreq with rfl | hold
    · rw [List.count_cons_self, hnone]
      exact ⟨rfl, show 1 ≤ 5 by decide⟩
    · rw [List.count_cons_of_ne (hnew req hold)]
      exact h.counted req hold
  · rw [hperm.count_eq]
    by_cases hn : s.nextSerial = n
    · rw [← hn, List.count_cons_self, hnone]
      decide
    · rw [List.count_cons_of_ne hn]
      exact h.bounded n
  · show n < s.nextSerial + 1
    have hcases : n = s.nextSerial ∨
        n ∈ s.reqList.map (·.serial) ++ (s.requests ++ s.toRequest) := by
      rcases List.mem_append.mp hn with hreq | hlog
      · rcases List.mem_cons.mp hreq with rfl | hold
        · exact .inl rfl
        · exact .inr (List.mem_append_left _ hold)
      · rcases List.mem_cons.mp (hperm.mem_iff.mp hlog) with rfl | hold
        · exact .inl rfl
        · exact .inr (List.mem_append_right _ hold)
    rcases hcases with rfl | hold
    · omega
    · have hlt := h.below n hold
      omega

theorem World.Asked.sweep (h : s.Asked) (now : ℤ) (entries : Fin maxArpSize → ArpCacheEntry μ) :
    World.Asked { s with
      entries := entries
      reqList := (sweepReqs now s.reqList).1
      pktList := (sweepReqs now s.reqList).2.1
      requests := s.requests ++ (sweepReqs now s.reqList).2.2 } := by
  obtain ⟨-, hserials, hagain, -⟩ := sublist_sweepReqs now s.reqList
  obtain ⟨hkept, hretried⟩ := retries_sweepReqs now h.serials
  have hcount (n : ℕ) : ((s.requests ++ (sweepReqs now s.reqList).2.2) ++ s.toRequest).count n =
      (s.requests ++ s.toRequest).count n + (sweepReqs now s.reqList).2.2.count n := by
    rw [List.count_append, List.count_append, List.count_append]
    omega
  refine ⟨hserials.nodup h.serials, fun req' hreq' => ?_, fun n => ?_, fun n hn => ?_⟩
  · obtain ⟨req, hreq, hserial, hretries, hle⟩ := hkept req' hreq'
    obtain ⟨hcounted, hbound⟩ := h.counted req hreq
    rw [hcount, hserial, hcounted, hretries]
    exact ⟨rfl, hretries ▸ hle hbound⟩
  · rw [hcount]
    by_cases hn : n ∈ (sweepReqs now s.reqList).2.2
    · obtain ⟨req, hreq, rfl, hlt⟩ := hretried n hn
      have hone := List.nodup_iff_count_le_one.mp (hagain.nodup h.serials) req.serial
      have hcounted := (h.counted req hreq).1
      omega
    · rw [List.count_eq_zero.mpr hn]
      exact h.bounded n
  · apply h.below n
    rcases List.mem_append.mp hn with hreq | hlog
    · exact List.mem_append_left _ (hserials.subset hreq)
    · rcases List.mem_append.mp hlog with hrequests | hto
      · rcases List.mem_append.mp hrequests with hold | hnew
        · exact List.mem_append_right _ (List.mem_append_left _ hold)
        · exact List.mem_append_left _ (hagain.subset hnew)
      · exact List.mem_append_right _ (List.mem_append_right _ hto)

theorem World.Asked.step {e : Event μ π} (h : s.Asked) (hstep : s.step e = some t) : t.Asked := by
  cases World.stepped hstep with
  | appendFound packet hreqs =>
    refine h.shrink ?_ (.refl _) rfl
    rw [hreqs, List.map_append, List.map_append]
    exact .refl _
  | appendNew iface ip4 packet now => exact h.appendNew iface ip4 packet now _
  | @request serial hserial =>
    refine h.shrink (.refl _) ?_ rfl
    show (s.requests ++ [serial] ++ s.toRequest.erase serial).Perm (s.requests ++ s.toRequest)
    rw [List.append_assoc]
    exact (List.perm_cons_erase hserial).symm.append_left _
  | insert ip4 mac now rand => exact h.shrink (.refl _) (.refl _) rfl
  | @flush pre post req ip4 mac now rand hreqs =>
    refine h.shrink ?_ (.refl _) rfl
    rw [hreqs]
    exact ((List.sublist_cons_self req post).append_left pre).map _
  | sweep now => exact h.sweep now _
  | report => exact h.shrink (.refl _) (.refl _) rfl

end Requests

section Runs

variable {s : World μ π}

theorem World.Initial.accounted (h : s.Initial) : s.Accounted := by
  obtain ⟨hreqs, hpkts, -, happended, hsent, hreported, -⟩ := h
  refine ⟨?_, ?_, fun key => ?_⟩
  · rw [hreqs, hpkts, happended, hsent, hreported]
    rfl
  · rw [hreqs]
    exact List.nodup_nil
  · rw [hreqs, happended, hsent]
    exact .refl _

theorem World.Initial.asked (h : s.Initial) : s.Asked := by
  obtain ⟨hreqs, -, hto, -, -, -, hrequests⟩ := h
  refine ⟨?_, fun req hreq => ?_, fun n => ?_, fun n hn => ?_⟩
  · rw [hreqs]
    exact List.nodup_nil
  · rw [hreqs] at hreq
    exact absurd hreq List.not_mem_nil
  · rw [hrequests, hto]
    exact Nat.zero_le _
  · rw [hreqs, hrequests, hto] at hn
    exact absurd hn List.not_mem_nil

/-- Every packet is sent, reported, about to be reported, or waits in the one request for its key;
packets for one key are sent in order; and no request is asked for more than five times. -/
theorem pending_packets_conserved (h : Reaches World.step anyStep World.Initial s) :
    (s.appended.map Prod.snd : Multiset π) = (s.sent.map (·.packet) : Multiset π) + s.reported +
      (s.pktList + (s.reqList.flatMap (·.cachedPackets) : Multiset π)) ∧
    (s.reqList.map ArpReq.key).Nodup ∧
    (∀ key, ((s.sent.filter fun p => decide (p.key = key)).map (·.packet)).Sublist
      ((s.appended.filter fun p => decide (p.1 = key)).map Prod.snd)) ∧
    ∀ n, s.requests.count n ≤ arpRequestMaxRetries := by
  have haccounted : s.Accounted := h.invariant World.Accounted
    (fun _ => World.Initial.accounted) fun _ _ _ hs _ => hs.step
  have hasked : s.Asked := h.invariant World.Asked
    (fun _ => World.Initial.asked) fun _ _ _ hs _ => hs.step
  refine ⟨?_, haccounted.keys, fun key => ?_, fun n => ?_⟩
  · rw [← add_assoc]
    exact haccounted.conserved
  · exact (List.sublist_append_left _ _).trans (haccounted.order key)
  · have hbound := hasked.bounded n
    rw [List.count_append] at hbound
    omega

/-- The cache after `arpcache_init`. -/
def emptyCache : World ℕ ℕ := ⟨fun _ => ⟨0, 0, 0, false⟩, [], [], [], 0, [], [], [], []⟩

/-- Two packets for one key and one for the same address on another interface; the reply is for
the first request with the address. -/
def replyEvents : List (Event ℕ ℕ) :=
  [.append 2 7 30 0, .request 0, .append 1 7 10 0, .append 1 7 20 0, .request 1, .sweep 5,
    .insert 7 99 6 0]

theorem pending_packets_conserved_reply : ∃ s : World ℕ ℕ, s.sent.map (·.packet) = [10, 20] ∧
    ((s.sent.filter fun p => decide (p.key = (1, 7))).map (·.packet)).Sublist
      ((s.appended.filter fun p => decide (p.1 = (1, 7))).map Prod.snd) := by
  refine ⟨(exec World.step anyStep emptyCache replyEvents).get (by decide +kernel),
    by decide +kernel, ?_⟩
  exact (pending_packets_conserved (.of_exec (.start ⟨rfl, rfl, rfl, rfl, rfl, rfl, rfl⟩)
    (Option.some_get _).symm)).2.2.1 (1, 7)

end Runs

end NetworkLab.Arp
