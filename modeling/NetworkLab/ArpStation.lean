import NetworkLab.ArpInsertion
import NetworkLab.MospfWire

/-!
# The ARP packets of a station

`arp.c` over the cache of `arpcache.c`. A station interleaves the threads that send packets, the
thread that receives frames and the sweep. As long as it hears what is right, all that it stores
and sends is right, and it sends every packet once at most.
-/
namespace NetworkLab.Arp
open GuardedRuns

variable {π : Type*}

section Model

/-- A hardware address, `ETH_ALEN` bytes. -/
abbrev Mac := Vector UInt8 6

/-- `struct ether_arp`, with its fields as they are in memory. -/
structure EtherArp where
  arpHrd : UInt16
  arpPro : UInt16
  arpHln : UInt8
  arpPln : UInt8
  arpOp : UInt16
  arpSha : Mac
  arpSpa : UInt32
  arpTha : Mac
  arpTpa : UInt32
  deriving DecidableEq

/-- What follows the Ethernet header; `ether_type` says which of the two it is. -/
inductive Payload (π : Type*)
  | ip (packet : π)
  | arp (arp : EtherArp)

structure Frame (π : Type*) where
  etherDhost : Mac
  etherShost : Mac
  payload : Payload π

structure IfaceInfo where
  mac : Mac
  ip : UInt32

def arphrdEther : UInt16 := 1

def ethPIp : UInt16 := 0x0800

def arpopRequest : UInt16 := 1

def arpopReply : UInt16 := 2

def bcMac : Mac := Vector.replicate 6 255

/-- The ARP packet of `arp_send_request`. -/
def requestArp (iface : IfaceInfo) (dstIp : UInt32) : EtherArp where
  arpHrd := htons arphrdEther
  arpPro := htons ethPIp
  arpHln := 6
  arpPln := 4
  arpOp := htons arpopRequest
  arpSha := iface.mac
  arpSpa := htonl iface.ip
  arpTha := Vector.replicate 6 0
  arpTpa := htonl dstIp

/-- The ARP packet of `arp_send_reply`. -/
def replyArp (iface : IfaceInfo) (req : EtherArp) : EtherArp where
  arpHrd := htons arphrdEther
  arpPro := htons ethPIp
  arpHln := 6
  arpPln := 4
  arpOp := htons arpopReply
  arpSha := iface.mac
  arpSpa := htonl iface.ip
  arpTha := req.arpSha
  arpTpa := req.arpSpa

/-- The frame that `arp_send_request` sends. -/
def arpRequest (iface : IfaceInfo) (dstIp : UInt32) : Frame π :=
  ⟨bcMac, iface.mac, .arp (requestArp iface dstIp)⟩

/-- The frame that `arp_send_reply` sends. -/
def arpReply (iface : IfaceInfo) (req : EtherArp) : Frame π :=
  ⟨req.arpSha, iface.mac, .arp (replyArp iface req)⟩

/-- The frames that `handle_arp_packet` sends, and the arguments of `arpcache_insert` after it. -/
abbrev Handled (π : Type*) := List (Frame π) × List (UInt32 × Mac)

def handleArpPacket (iface : IfaceInfo) (arp : EtherArp) : Handled π :=
  if ntohs arp.arpOp = arpopRequest then
    if iface.ip = ntohl arp.arpTpa then
      ([arpReply iface arp], [(ntohl arp.arpSpa, arp.arpSha)])
    else ([], [])
  else if ntohs arp.arpOp = arpopReply then
    if iface.ip = ntohl arp.arpTpa then ([], [(ntohl arp.arpSpa, arp.arpSha)]) else ([], [])
  else ([], [])

/-- A station between the steps of its threads: the cache, the calls of `iface_send_packet_by_arp`
that have found nothing in it, the calls of `arpcache_append_packet` that have made a request and
are still to send it, and the addresses that are to be inserted. -/
structure Station (π : Type*) where
  cache : World Mac π
  missed : List ((ℤ × UInt32) × π)
  asking : List (ℕ × (ℤ × UInt32))
  learned : List (UInt32 × Mac)

inductive Action (π : Type*)
  /-- `iface_send_packet_by_arp` up to the lookup. -/
  | send (iface : ℤ) (dstIp : UInt32) (packet : π)
  | append (k : ℕ) (now : ℤ)
  | request (k : ℕ)
  | receive (iface : ℤ) (frame : Frame π)
  | insert (k : ℕ) (now : ℤ) (rand : ℕ)
  | sweep (now : ℤ)
  | report

/-- The frame with the header that a packet is sent with. -/
def ipFrame (info : ℤ → IfaceInfo) (iface : ℤ) (mac : Mac) (packet : π) : ℤ × Frame π :=
  (iface, ⟨mac, (info iface).mac, .ip packet⟩)

/-- A step of a station, with the frames that it sends and the interfaces it sends them from. An
IP packet that is received is none of this part's business: what it makes the station send is
another call. -/
def Station.step (info : ℤ → IfaceInfo) (s : Station π) :
    Action π → Option (Station π × List (ℤ × Frame π))
  | .send iface dstIp packet =>
    match arpcacheLookup s.cache.entries dstIp with
    | some mac => some (s, [ipFrame info iface mac packet])
    | none => some ({ s with missed := s.missed ++ [((iface, dstIp), packet)] }, [])
  | .append k now =>
    (s.missed[k]?).bind fun call =>
      (s.cache.step (.append call.1.1 call.1.2 call.2 now)).map fun cache =>
        ({ s with
          cache := cache
          missed := s.missed.eraseIdx k
          asking := if (appendFound call.1.1 call.1.2 call.2 s.cache.reqList).isNone then
            (s.cache.nextSerial, call.1) :: s.asking else s.asking }, [])
  | .request k =>
    (s.asking[k]?).bind fun call =>
      (s.cache.step (.request call.1)).map fun cache =>
        ({ s with cache := cache, asking := s.asking.eraseIdx k },
          [(call.2.1, arpRequest (info call.2.1) call.2.2)])
  | .receive iface frame =>
    match frame.payload with
    | .ip _ => some (s, [])
    | .arp arp =>
      some ({ s with learned := s.learned ++ (handleArpPacket (info iface) arp : Handled π).2 },
        (handleArpPacket (info iface) arp).1.map (iface, ·))
  | .insert k now rand =>
    (s.learned[k]?).bind fun entry =>
      (s.cache.step (.insert entry.1 entry.2 now rand)).map fun cache =>
        ({ s with cache := cache, learned := s.learned.eraseIdx k },
          (cache.sent.drop s.cache.sent.length).map fun p => ipFrame info p.key.1 p.mac p.packet)
  | .sweep now =>
    (s.cache.step (.sweep now)).map fun cache =>
      ({ s with cache := cache },
        (s.cache.reqList.filter fun req =>
          decide (req.serial ∈ (sweepReqs now s.cache.reqList).2.2)).map fun req =>
            (req.iface, arpRequest (info req.iface) req.ip4))
  | .report => (s.cache.step .report).map fun cache => ({ s with cache := cache }, [])

/-- What `iface_send_packet_by_arp` is called with. -/
def Action.calls : Action π → List ((ℤ × UInt32) × π)
  | .send iface dstIp packet => [((iface, dstIp), packet)]
  | .append .. | .request .. | .receive .. | .insert .. | .sweep .. | .report => []

/-- The frame's IP packet. -/
def Payload.packet? : Payload π → Option π
  | .ip packet => some packet
  | .arp _ => none

end Model

section Cache

variable {s t : World Mac π} {known : UInt32 → Mac → Prop}
  {entries : Fin maxArpSize → ArpCacheEntry Mac} {ip4 : UInt32} {mac : Mac} {now : ℤ} {rand : ℕ}

/-- The valid entries hold what is known. -/
def EntriesKnown (known : UInt32 → Mac → Prop) (entries : Fin maxArpSize → ArpCacheEntry Mac) :
    Prop :=
  ∀ i, (entries i).valid = true → known (entries i).ip4 (entries i).mac

theorem EntriesKnown.insertEntry (h : EntriesKnown known entries) (hnew : known ip4 mac) :
    EntriesKnown known (insertEntry entries ip4 mac now rand) := by
  intro i hi
  by_cases hcached : ∃ i, (entries i).valid = true ∧ (entries i).ip4 = ip4
  · rw [Arp.insertEntry, if_pos hcached] at hi ⊢
    by_cases hsame : (entries i).valid = true ∧ (entries i).ip4 = ip4
    · rw [if_pos hsame, hsame.2]
      exact hnew
    · rw [if_neg hsame] at hi ⊢
      exact h i hi
  · by_cases hfree : ∃ i, (entries i).valid = false
    · rw [insertEntry_of_free hcached hfree] at hi ⊢
      by_cases hslot : i = Fin.ofNat maxArpSize rand
      · rw [hslot, Function.update_self]
        exact hnew
      · rw [Function.update_of_ne hslot] at hi ⊢
        exact h i hi
    · rw [insertEntry_of_full hcached hfree] at hi ⊢
      exact h i hi

theorem EntriesKnown.expireEntries (h : EntriesKnown known entries) :
    EntriesKnown known (expireEntries entries now) := by
  intro i hi
  rw [Arp.expireEntries] at hi ⊢
  split_ifs at hi ⊢ with hold
  exact h i hi

theorem EntriesKnown.lookup (h : EntriesKnown known entries)
    (hfound : arpcacheLookup entries ip4 = some mac) : known ip4 mac := by
  obtain ⟨i, hi, rfl⟩ := Option.map_eq_some_iff.mp hfound
  have hpair : (entries i).valid = true ∧ (entries i).ip4 = ip4 := by
    simpa using List.find?_some hi
  rw [← hpair.2]
  exact h i hpair.1

/-- What an append does: it adds the packet to a request or makes one. -/
theorem append_cases {key : ℤ × UInt32} {packet : π}
    (h : s.step (.append key.1 key.2 packet now) = some t) :
    (∃ pre req post, s.reqList = pre ++ req :: post ∧ req.key = key ∧
      appendFound key.1 key.2 packet s.reqList = some (pre ++ req.push packet :: post) ∧
      t = { s with
        reqList := pre ++ req.push packet :: post, appended := s.appended ++ [(key, packet)] }) ∨
    (appendFound key.1 key.2 packet s.reqList = none ∧
      t = { s with
        reqList := ⟨key.1, key.2, now, 1, [packet], s.nextSerial⟩ :: s.reqList
        toRequest := s.nextSerial :: s.toRequest
        nextSerial := s.nextSerial + 1
        appended := s.appended ++ [(key, packet)] }) := by
  rw [World.step] at h
  cases hfound : appendFound key.1 key.2 packet s.reqList with
  | some reqs =>
    rw [hfound] at h
    obtain ⟨pre, req, post, hreqs, hkey, rfl⟩ := appendFound_eq_some hfound
    exact .inl ⟨pre, req, post, hreqs, hkey, rfl, (Option.some.inj h).symm⟩
  | none =>
    rw [hfound] at h
    exact .inr ⟨rfl, (Option.some.inj h).symm⟩

theorem append_frame {key : ℤ × UInt32} {packet : π}
    (h : s.step (.append key.1 key.2 packet now) = some t) :
    t.entries = s.entries ∧ t.sent = s.sent ∧ t.appended = s.appended ++ [(key, packet)] := by
  rcases append_cases h with ⟨pre, req, post, -, -, -, rfl⟩ | ⟨-, rfl⟩
  · exact ⟨rfl, rfl, rfl⟩
  · exact ⟨rfl, rfl, rfl⟩

/-- What an insertion does: it flushes the first request for the address. -/
theorem insert_cases (h : s.step (.insert ip4 mac now rand) = some t) :
    t.entries = insertEntry s.entries ip4 mac now rand ∧ t.appended = s.appended ∧
    t.toRequest = s.toRequest ∧
    (((∀ req ∈ s.reqList, req.ip4 ≠ ip4) ∧ t.reqList = s.reqList ∧ t.sent = s.sent) ∨
      ∃ pre req post, s.reqList = pre ++ req :: post ∧ req.ip4 = ip4 ∧ t.reqList = pre ++ post ∧
        t.sent = s.sent ++ req.cachedPackets.map fun packet => ⟨req.key, packet, mac⟩) := by
  rw [World.step] at h
  cases hfind : s.reqList.find? fun req => decide (req.ip4 = ip4) with
  | none =>
    rw [hfind] at h
    obtain rfl := Option.some.inj h
    exact ⟨rfl, rfl, rfl, .inl ⟨by simpa using hfind, rfl, rfl⟩⟩
  | some req =>
    rw [hfind] at h
    obtain rfl := Option.some.inj h
    obtain ⟨pre, post, hreqs, herase⟩ := flush_cases hfind
    have hip : req.ip4 = ip4 := by simpa using List.find?_some hfind
    exact ⟨rfl, rfl, rfl, .inr ⟨pre, req, post, hreqs, hip, herase, rfl⟩⟩

theorem mem_of_insert (h : s.step (.insert ip4 mac now rand) = some t) :
    ∀ req ∈ t.reqList, req ∈ s.reqList := by
  intro r hr
  obtain ⟨-, -, -, hreqs⟩ := insert_cases h
  rcases hreqs with ⟨-, hsame, -⟩ | ⟨pre, req, post, hold, -, hrest, -⟩
  · rwa [hsame] at hr
  · rw [hrest] at hr
    rw [hold]
    exact ((List.sublist_cons_self req post).append_left pre).subset hr

/-- What a sweep leaves in a request was there before. -/
theorem of_mem_sweepReqs {now : ℤ} {reqs : List (ArpReq π)} {req' : ArpReq π}
    (h : req' ∈ (sweepReqs now reqs).1) :
    ∃ req ∈ reqs, req'.key = req.key ∧ req'.serial = req.serial ∧
      req'.cachedPackets = req.cachedPackets := by
  induction reqs with
  | nil => exact absurd h List.not_mem_nil
  | cons req reqs ih =>
    rw [sweepReqs_cons] at h
    have hrest (hin : req' ∈ (sweepReqs now reqs).1) : ∃ r ∈ req :: reqs, req'.key = r.key ∧
        req'.serial = r.serial ∧ req'.cachedPackets = r.cachedPackets := by
      obtain ⟨r, hr, hsame⟩ := ih hin
      exact ⟨r, List.mem_cons_of_mem _ hr, hsame⟩
    split_ifs at h
    · rcases List.mem_cons.mp h with rfl | hin
      · exact ⟨req', List.mem_cons_self, rfl, rfl, rfl⟩
      · exact hrest hin
    · rcases List.mem_cons.mp h with rfl | hin
      · exact ⟨req, List.mem_cons_self, rfl, rfl, rfl⟩
      · exact hrest hin
    · exact hrest h

variable {ifaces : List ℤ} {called : ℤ × UInt32 → π → Prop} {reqs : List (ArpReq π)}

/-- The requests are for interfaces of the station and hold packets that it has been called with. -/
def ReqsRight (ifaces : List ℤ) (called : ℤ × UInt32 → π → Prop) (reqs : List (ArpReq π)) : Prop :=
  ∀ req ∈ reqs, req.iface ∈ ifaces ∧ ∀ packet ∈ req.cachedPackets, called req.key packet

theorem ReqsRight.append {key : ℤ × UInt32} {packet : π} (h : ReqsRight ifaces called s.reqList)
    (hcall : called key packet) (hiface : key.1 ∈ ifaces)
    (hstep : s.step (.append key.1 key.2 packet now) = some t) :
    ReqsRight ifaces called t.reqList := by
  intro req hreq
  rcases append_cases hstep with ⟨pre, old, post, hreqs, hkey, -, rfl⟩ | ⟨-, rfl⟩
  · rw [hreqs] at h
    rw [List.mem_append, List.mem_cons] at hreq
    rcases hreq with hpre | rfl | hpost
    · exact h req (List.mem_append_left _ hpre)
    · have hold := h old (List.mem_append_right _ List.mem_cons_self)
      refine ⟨hold.1, List.forall_mem_append.mpr ⟨hold.2, ?_⟩⟩
      rw [key_push, hkey]
      exact List.forall_mem_singleton.mpr hcall
    · exact h req (List.mem_append_right _ (List.mem_cons_of_mem _ hpost))
  · rcases List.mem_cons.mp hreq with rfl | hold
    · exact ⟨hiface, List.forall_mem_singleton.mpr hcall⟩
    · exact h req hold

theorem ReqsRight.sweep (h : ReqsRight ifaces called reqs) :
    ReqsRight ifaces called (sweepReqs now reqs).1 := by
  intro req' hreq'
  obtain ⟨req, hreq, hkey, -, hpackets⟩ := of_mem_sweepReqs hreq'
  have hiface : req'.iface = req.iface := congrArg Prod.fst hkey
  rw [hkey, hpackets, hiface]
  exact h req hreq

end Cache

section Station

variable {info : ℤ → IfaceInfo} {ifaces : List ℤ} {known : UInt32 → Mac → Prop}
  {called called' : ℤ × UInt32 → π → Prop} {s t : Station π} {frames : List (ℤ × Frame π)}

/-- All that a station holds is right: addresses are known ones, and packets are those that it has
been called with. -/
structure Station.Honest (ifaces : List ℤ) (known : UInt32 → Mac → Prop)
    (called : ℤ × UInt32 → π → Prop) (s : Station π) : Prop where
  entries : EntriesKnown known s.cache.entries
  learned : ∀ entry ∈ s.learned, known entry.1 entry.2
  missed : ∀ call ∈ s.missed, called call.1 call.2
  asking : ∀ call ∈ s.asking, call.2.1 ∈ ifaces
  waiting : ReqsRight ifaces called s.cache.reqList

/-- A frame has the source of the interface that it is sent from, and an ARP packet in it has the
addresses of the interface. An IP packet goes to the address that is known for the next hop it has
been sent to. -/
def FrameRight (info : ℤ → IfaceInfo) (known : UInt32 → Mac → Prop)
    (called : ℤ × UInt32 → π → Prop) (sent : ℤ × Frame π) : Prop :=
  sent.2.etherShost = (info sent.1).mac ∧
    match sent.2.payload with
    | .ip packet => ∃ dstIp, called (sent.1, dstIp) packet ∧ known dstIp sent.2.etherDhost
    | .arp arp => arp.arpSha = (info sent.1).mac ∧ ntohl arp.arpSpa = (info sent.1).ip

theorem Station.Honest.mono (h : s.Honest ifaces known called)
    (hcalled : ∀ key packet, called key packet → called' key packet) :
    s.Honest ifaces known called' where
  entries := h.entries
  learned := h.learned
  missed call hcall := hcalled _ _ (h.missed call hcall)
  asking := h.asking
  waiting req hreq := ⟨(h.waiting req hreq).1, fun packet hpacket =>
    hcalled _ _ ((h.waiting req hreq).2 packet hpacket)⟩

theorem FrameRight.mono {sent : ℤ × Frame π} (h : FrameRight info known called sent)
    (hcalled : ∀ key packet, called key packet → called' key packet) :
    FrameRight info known called' sent := by
  obtain ⟨hshost, hpayload⟩ := h
  refine ⟨hshost, ?_⟩
  cases hp : sent.2.payload with
  | arp arp =>
    rw [hp] at hpayload
    exact hpayload
  | ip packet =>
    rw [hp] at hpayload
    obtain ⟨dstIp, hcall, hknown⟩ := hpayload
    exact ⟨dstIp, hcalled _ _ hcall, hknown⟩

theorem frameRight_arpRequest (iface : ℤ) (dstIp : UInt32) :
    FrameRight info known called (iface, arpRequest (info iface) dstIp) :=
  ⟨rfl, rfl, Mospf.htonl_htonl _⟩

theorem frameRight_ipFrame {iface : ℤ} {dstIp : UInt32} {mac : Mac} {packet : π}
    (hcall : called (iface, dstIp) packet) (hknown : known dstIp mac) :
    FrameRight info known called (ipFrame info iface mac packet) :=
  ⟨rfl, dstIp, hcall, hknown⟩

/-- What `handle_arp_packet` sends, and what it takes from the packet. -/
theorem handleArpPacket_cases (iface : IfaceInfo) (arp : EtherArp) :
    (∀ frame ∈ (handleArpPacket iface arp : Handled π).1, frame = arpReply iface arp) ∧
      ∀ entry ∈ (handleArpPacket iface arp : Handled π).2,
        entry = (ntohl arp.arpSpa, arp.arpSha) := by
  rw [handleArpPacket]
  split_ifs <;> simp

/-- One step: `hcalled` says what the station may be called with, `hheard` what a frame that it
receives holds. -/
theorem Station.Honest.step {a : Action π} (h : s.Honest ifaces known called)
    (hifaces : ∀ key packet, called key packet → key.1 ∈ ifaces)
    (hcalled : ∀ iface dstIp packet, a = .send iface dstIp packet → called (iface, dstIp) packet)
    (hheard : ∀ iface frame arp, a = .receive iface frame → frame.payload = .arp arp →
      iface ∈ ifaces ∧ known (ntohl arp.arpSpa) arp.arpSha)
    (hstep : s.step info a = some (t, frames)) :
    t.Honest ifaces known called ∧
      ∀ sent ∈ frames, sent.1 ∈ ifaces ∧ FrameRight info known called sent := by
  cases a with
  | send iface dstIp packet =>
    have hcall := hcalled iface dstIp packet rfl
    rw [Station.step] at hstep
    cases hfound : arpcacheLookup s.cache.entries dstIp with
    | some mac =>
      rw [hfound] at hstep
      obtain ⟨rfl, rfl⟩ := Prod.mk.inj (Option.some.inj hstep)
      refine ⟨h, List.forall_mem_singleton.mpr ⟨hifaces _ _ hcall, ?_⟩⟩
      exact frameRight_ipFrame hcall (h.entries.lookup hfound)
    | none =>
      rw [hfound] at hstep
      obtain ⟨rfl, rfl⟩ := Prod.mk.inj (Option.some.inj hstep)
      refine ⟨{ h with missed := ?_ }, List.forall_mem_nil _⟩
      exact List.forall_mem_append.mpr ⟨h.missed, List.forall_mem_singleton.mpr hcall⟩
  | append k now =>
    obtain ⟨call, hk, hstep⟩ := Option.bind_eq_some_iff.mp hstep
    obtain ⟨cache, hcache, heq⟩ := Option.map_eq_some_iff.mp hstep
    obtain ⟨rfl, rfl⟩ := Prod.mk.inj heq
    have hcall := h.missed call (List.mem_of_getElem? hk)
    have hiface := hifaces _ _ hcall
    refine ⟨⟨?_, h.learned, fun c hc => h.missed c (List.eraseIdx_subset hc), fun c hc => ?_,
      h.waiting.append hcall hiface hcache⟩, List.forall_mem_nil _⟩
    · show EntriesKnown known cache.entries
      rw [(append_frame hcache).1]
      exact h.entries
    · dsimp only at hc
      split_ifs at hc
      · rcases List.mem_cons.mp hc with rfl | hold
        · exact hiface
        · exact h.asking c hold
      · exact h.asking c hc
  | request k =>
    obtain ⟨call, hk, hstep⟩ := Option.bind_eq_some_iff.mp hstep
    obtain ⟨cache, hcache, heq⟩ := Option.map_eq_some_iff.mp hstep
    obtain ⟨rfl, rfl⟩ := Prod.mk.inj heq
    rw [World.step] at hcache
    split_ifs at hcache
    obtain rfl := Option.some.inj hcache
    refine ⟨⟨h.entries, h.learned, h.missed, fun c hc => h.asking c (List.eraseIdx_subset hc),
      h.waiting⟩, List.forall_mem_singleton.mpr ⟨?_, frameRight_arpRequest _ _⟩⟩
    exact h.asking call (List.mem_of_getElem? hk)
  | receive iface frame =>
    rw [Station.step] at hstep
    cases hpayload : frame.payload with
    | ip packet =>
      rw [hpayload] at hstep
      obtain ⟨rfl, rfl⟩ := Prod.mk.inj (Option.some.inj hstep)
      exact ⟨h, List.forall_mem_nil _⟩
    | arp arp =>
      rw [hpayload] at hstep
      obtain ⟨rfl, rfl⟩ := Prod.mk.inj (Option.some.inj hstep)
      obtain ⟨hiface, hknown⟩ := hheard iface frame arp rfl hpayload
      refine ⟨{ h with learned := ?_ }, fun sent hsent => ?_⟩
      · refine List.forall_mem_append.mpr ⟨h.learned, fun entry hentry => ?_⟩
        rw [(handleArpPacket_cases (info iface) arp).2 entry hentry]
        exact hknown
      · obtain ⟨reply, hreply, rfl⟩ := List.mem_map.mp hsent
        rw [(handleArpPacket_cases (info iface) arp).1 reply hreply]
        exact ⟨hiface, rfl, rfl, Mospf.htonl_htonl _⟩
  | insert k now rand =>
    obtain ⟨entry, hk, hstep⟩ := Option.bind_eq_some_iff.mp hstep
    obtain ⟨cache, hcache, heq⟩ := Option.map_eq_some_iff.mp hstep
    obtain ⟨rfl, rfl⟩ := Prod.mk.inj heq
    have hentry := h.learned entry (List.mem_of_getElem? hk)
    obtain ⟨hentries, -, -, hreqs⟩ := insert_cases hcache
    have hlearned (e : UInt32 × Mac) (he : e ∈ s.learned.eraseIdx k) : known e.1 e.2 :=
      h.learned e (List.eraseIdx_subset he)
    have hknown : EntriesKnown known cache.entries := by
      rw [hentries]
      exact h.entries.insertEntry hentry
    have hwaiting : ReqsRight ifaces called cache.reqList := fun r hr =>
      h.waiting r (mem_of_insert hcache r hr)
    refine ⟨⟨hknown, hlearned, h.missed, h.asking, hwaiting⟩, ?_⟩
    rcases hreqs with ⟨-, -, hsent⟩ | ⟨pre, req, post, hold, hip, -, hsent⟩
    · rw [hsent, List.drop_length]
      exact List.forall_mem_nil _
    · have hreq := h.waiting req (by simp [hold])
      rw [hsent, List.drop_left]
      intro sent hmem
      obtain ⟨p, hp, rfl⟩ := List.mem_map.mp hmem
      obtain ⟨packet, hpacket, rfl⟩ := List.mem_map.mp hp
      exact ⟨hreq.1, frameRight_ipFrame (hreq.2 packet hpacket) (hip ▸ hentry)⟩
  | sweep now =>
    obtain ⟨cache, hcache, heq⟩ := Option.map_eq_some_iff.mp hstep
    obtain ⟨rfl, rfl⟩ := Prod.mk.inj heq
    refine ⟨?_, fun sent hsent => ?_⟩
    · rw [World.step] at hcache
      split at hcache
      · obtain rfl := Option.some.inj hcache
        exact ⟨h.entries.expireEntries, h.learned, h.missed, h.asking, h.waiting.sweep⟩
      · cases hcache
    · obtain ⟨req, hreq, rfl⟩ := List.mem_map.mp hsent
      exact ⟨(h.waiting req (List.mem_filter.mp hreq).1).1, frameRight_arpRequest _ _⟩
  | report =>
    obtain ⟨cache, hcache, heq⟩ := Option.map_eq_some_iff.mp hstep
    obtain ⟨rfl, rfl⟩ := Prod.mk.inj heq
    rw [World.step] at hcache
    split at hcache
    · cases hcache
    · obtain rfl := Option.some.inj hcache
      exact ⟨⟨h.entries, h.learned, h.missed, h.asking, h.waiting⟩, List.forall_mem_nil _⟩

end Station

section Packets

variable {info : ℤ → IfaceInfo} {s t : Station π} {called out : List π}
  {frames : List (ℤ × Frame π)}

/-- The IP packets among frames. -/
def ipPackets (frames : List (Frame π)) : List π :=
  frames.filterMap fun frame => frame.payload.packet?

/-- A packet that the station has been called with has gone out, has been looked up without an
address, or has been appended; of those that have been appended some have gone out as well. -/
def Station.Balanced (s : Station π) (called out : List π) : Prop :=
  (called : Multiset π) + (s.cache.sent.map (·.packet) : Multiset π) =
    out + (s.missed.map Prod.snd : Multiset π) + (s.cache.appended.map Prod.snd : Multiset π)

/-- Frames without IP packets. -/
theorem ipPackets_eq_nil {frames : List (Frame π)}
    (h : ∀ frame ∈ frames, ∃ arp, frame.payload = .arp arp) : ipPackets frames = [] := by
  refine List.filterMap_eq_nil_iff.mpr fun frame hframe => ?_
  obtain ⟨arp, harp⟩ := h frame hframe
  rw [harp]
  rfl

theorem ipPackets_ipFrame (sent : List (SentPkt Mac π)) :
    ipPackets ((sent.map fun p => ipFrame info p.key.1 p.mac p.packet).map Prod.snd) =
      sent.map (·.packet) := by
  induction sent with
  | nil => rfl
  | cons p sent ih => exact congrArg (p.packet :: ·) ih

theorem ipPackets_append (frames frames' : List (Frame π)) :
    ipPackets (frames ++ frames') = ipPackets frames ++ ipPackets frames' :=
  List.filterMap_append

/-- A step that only sends ARP packets and changes nothing of the account. -/
theorem Station.Balanced.quiet (h : s.Balanced called out) (hmissed : t.missed = s.missed)
    (hsent : t.cache.sent = s.cache.sent) (happended : t.cache.appended = s.cache.appended)
    (hframes : ∀ sent ∈ frames, ∃ arp, sent.2.payload = .arp arp) :
    t.Balanced (called ++ []) (out ++ ipPackets (frames.map Prod.snd)) := by
  have hnone : ipPackets (frames.map Prod.snd) = [] := by
    apply ipPackets_eq_nil
    intro frame hframe
    obtain ⟨sent, hsent, rfl⟩ := List.mem_map.mp hframe
    exact hframes sent hsent
  simpa [Station.Balanced, hnone, hmissed, hsent, happended] using h

theorem Station.Balanced.step {a : Action π} (h : s.Balanced called out)
    (hstep : s.step info a = some (t, frames)) :
    t.Balanced (called ++ a.calls.map Prod.snd) (out ++ ipPackets (frames.map Prod.snd)) := by
  cases a with
  | send iface dstIp packet =>
    rw [Station.step] at hstep
    cases hfound : arpcacheLookup s.cache.entries dstIp with
    | some mac =>
      rw [hfound] at hstep
      obtain ⟨rfl, rfl⟩ := Prod.mk.inj (Option.some.inj hstep)
      rw [Station.Balanced] at h ⊢
      show ((called ++ [packet] : List π) : Multiset π) + _ =
        ((out ++ [packet] : List π) : Multiset π) + _ + _
      rw [← Multiset.coe_add, ← Multiset.coe_add, add_right_comm, h]
      abel
    | none =>
      rw [hfound] at hstep
      obtain ⟨rfl, rfl⟩ := Prod.mk.inj (Option.some.inj hstep)
      rw [Station.Balanced] at h ⊢
      show ((called ++ [packet] : List π) : Multiset π) + _ = ((out ++ [] : List π) : Multiset π) +
        (((s.missed ++ [((iface, dstIp), packet)]).map Prod.snd : List π) : Multiset π) + _
      rw [List.map_append, ← Multiset.coe_add, ← Multiset.coe_add, ← Multiset.coe_add,
        add_right_comm, h, Multiset.coe_nil, List.map_singleton]
      abel
  | append k now =>
    obtain ⟨call, hk, hstep⟩ := Option.bind_eq_some_iff.mp hstep
    obtain ⟨cache, hcache, heq⟩ := Option.map_eq_some_iff.mp hstep
    obtain ⟨rfl, rfl⟩ := Prod.mk.inj heq
    obtain ⟨-, hsent, happended⟩ := append_frame hcache
    have hperm : (s.missed.map Prod.snd : Multiset π) =
        ((s.missed.eraseIdx k).map Prod.snd : Multiset π) + {call.2} := by
      have hlt := (List.getElem?_eq_some_iff.mp hk).1
      have hget : s.missed[k] = call := (List.getElem?_eq_some_iff.mp hk).2
      rw [← hget, add_comm, Multiset.singleton_add, Multiset.cons_coe]
      exact Multiset.coe_eq_coe.mpr ((List.getElem_cons_eraseIdx_perm hlt).map Prod.snd).symm
    rw [Station.Balanced] at h ⊢
    show ((called ++ [] : List π) : Multiset π) + (cache.sent.map (·.packet) : Multiset π) =
      ((out ++ [] : List π) : Multiset π) + ((s.missed.eraseIdx k).map Prod.snd : Multiset π) +
        (cache.appended.map Prod.snd : Multiset π)
    rw [hsent, happended, List.append_nil, List.append_nil, h, hperm, List.map_append,
      List.map_singleton, ← Multiset.coe_add, Multiset.coe_singleton]
    abel
  | request k =>
    obtain ⟨call, hk, hstep⟩ := Option.bind_eq_some_iff.mp hstep
    obtain ⟨cache, hcache, heq⟩ := Option.map_eq_some_iff.mp hstep
    obtain ⟨rfl, rfl⟩ := Prod.mk.inj heq
    rw [World.step] at hcache
    split_ifs at hcache
    obtain rfl := Option.some.inj hcache
    exact h.quiet rfl rfl rfl (List.forall_mem_singleton.mpr ⟨_, rfl⟩)
  | receive iface frame =>
    rw [Station.step] at hstep
    cases hpayload : frame.payload with
    | ip packet =>
      rw [hpayload] at hstep
      obtain ⟨rfl, rfl⟩ := Prod.mk.inj (Option.some.inj hstep)
      exact h.quiet rfl rfl rfl (List.forall_mem_nil _)
    | arp arp =>
      rw [hpayload] at hstep
      obtain ⟨rfl, rfl⟩ := Prod.mk.inj (Option.some.inj hstep)
      apply h.quiet rfl rfl rfl
      intro sent hsent
      obtain ⟨reply, hreply, rfl⟩ := List.mem_map.mp hsent
      rw [(handleArpPacket_cases (info iface) arp).1 reply hreply]
      exact ⟨_, rfl⟩
  | insert k now rand =>
    obtain ⟨entry, hk, hstep⟩ := Option.bind_eq_some_iff.mp hstep
    obtain ⟨cache, hcache, heq⟩ := Option.map_eq_some_iff.mp hstep
    obtain ⟨rfl, rfl⟩ := Prod.mk.inj heq
    obtain ⟨-, happended, -, hreqs⟩ := insert_cases hcache
    have hsent : (cache.sent.map (·.packet) : Multiset π) = (s.cache.sent.map (·.packet) :
        Multiset π) + ((cache.sent.drop s.cache.sent.length).map (·.packet) : Multiset π) := by
      rw [Multiset.coe_add, ← List.map_append]
      rcases hreqs with ⟨-, -, hsent⟩ | ⟨pre, req, post, -, -, -, hsent⟩
      · rw [hsent, List.drop_length, List.append_nil]
      · rw [hsent, List.drop_left]
    rw [Station.Balanced] at h ⊢
    rw [ipPackets_ipFrame, Action.calls, List.map_nil, List.append_nil]
    show (called : Multiset π) + (cache.sent.map (·.packet) : Multiset π) =
      ((out ++ (cache.sent.drop s.cache.sent.length).map (·.packet) : List π) : Multiset π) +
        (s.missed.map Prod.snd : Multiset π) + (cache.appended.map Prod.snd : Multiset π)
    rw [happended, hsent, ← Multiset.coe_add, ← add_assoc, h]
    abel
  | sweep now =>
    obtain ⟨cache, hcache, heq⟩ := Option.map_eq_some_iff.mp hstep
    obtain ⟨rfl, rfl⟩ := Prod.mk.inj heq
    have hframes : ∀ sent ∈ (s.cache.reqList.filter fun req =>
        decide (req.serial ∈ (sweepReqs now s.cache.reqList).2.2)).map fun req =>
          (req.iface, (arpRequest (info req.iface) req.ip4 : Frame π)),
        ∃ arp, sent.2.payload = .arp arp := by
      intro sent hsent
      obtain ⟨req, -, rfl⟩ := List.mem_map.mp hsent
      exact ⟨_, rfl⟩
    rw [World.step] at hcache
    split at hcache
    · obtain rfl := Option.some.inj hcache
      exact h.quiet rfl rfl rfl hframes
    · cases hcache
  | report =>
    obtain ⟨cache, hcache, heq⟩ := Option.map_eq_some_iff.mp hstep
    obtain ⟨rfl, rfl⟩ := Prod.mk.inj heq
    rw [World.step] at hcache
    split at hcache
    · cases hcache
    · obtain rfl := Option.some.inj hcache
      exact h.quiet rfl rfl rfl (List.forall_mem_nil _)

/-- The steps of a station are steps of its cache, or leave the cache alone. -/
theorem Station.cache_step {a : Action π} (hstep : s.step info a = some (t, frames)) :
    t.cache = s.cache ∨ ∃ e, s.cache.step e = some t.cache := by
  cases a with
  | send iface dstIp packet =>
    rw [Station.step] at hstep
    split at hstep
    · obtain ⟨rfl, -⟩ := Prod.mk.inj (Option.some.inj hstep)
      exact .inl rfl
    · obtain ⟨rfl, -⟩ := Prod.mk.inj (Option.some.inj hstep)
      exact .inl rfl
  | receive iface frame =>
    rw [Station.step] at hstep
    split at hstep
    · obtain ⟨rfl, -⟩ := Prod.mk.inj (Option.some.inj hstep)
      exact .inl rfl
    · obtain ⟨rfl, -⟩ := Prod.mk.inj (Option.some.inj hstep)
      exact .inl rfl
  | append k now =>
    obtain ⟨call, -, hstep⟩ := Option.bind_eq_some_iff.mp hstep
    obtain ⟨cache, hcache, heq⟩ := Option.map_eq_some_iff.mp hstep
    obtain ⟨rfl, -⟩ := Prod.mk.inj heq
    exact .inr ⟨_, hcache⟩
  | request k =>
    obtain ⟨call, -, hstep⟩ := Option.bind_eq_some_iff.mp hstep
    obtain ⟨cache, hcache, heq⟩ := Option.map_eq_some_iff.mp hstep
    obtain ⟨rfl, -⟩ := Prod.mk.inj heq
    exact .inr ⟨_, hcache⟩
  | insert k now rand =>
    obtain ⟨entry, -, hstep⟩ := Option.bind_eq_some_iff.mp hstep
    obtain ⟨cache, hcache, heq⟩ := Option.map_eq_some_iff.mp hstep
    obtain ⟨rfl, -⟩ := Prod.mk.inj heq
    exact .inr ⟨_, hcache⟩
  | sweep now =>
    obtain ⟨cache, hcache, heq⟩ := Option.map_eq_some_iff.mp hstep
    obtain ⟨rfl, -⟩ := Prod.mk.inj heq
    exact .inr ⟨_, hcache⟩
  | report =>
    obtain ⟨cache, hcache, heq⟩ := Option.map_eq_some_iff.mp hstep
    obtain ⟨rfl, -⟩ := Prod.mk.inj heq
    exact .inr ⟨_, hcache⟩

end Packets

end NetworkLab.Arp
