import Mathlib.Algebra.BigOperators.Fin
import Mathlib.Algebra.Order.BigOperators.Group.Finset
import NetworkLab.MospfDatabase
import NetworkLab.GuardedRuns

/-!
# Flooding of LSUs

The relay of `handle_mospf_lsu`, and any network of routers that run it. A packet in flight may
be delivered any number of times and in any order. What bounds a flood is the sequence number in
the database: a router that has relayed an LSU has an entry at least as new. The copies are for
neighbours of the other interfaces, but it is the routing table that says where they go.
-/
namespace NetworkLab.Mospf
open GuardedRuns

section Model

/-- What the relay and the sender of LSUs read of an interface. -/
structure Iface where
  index : ℤ
  ip : UInt32
  mask : UInt32
  numNbr : ℤ
  nbrList : List MospfNbr

/-- An IP packet with an LSU. -/
structure LsuPacket where
  lsu : Lsu
  ttl : UInt8
  saddr : UInt32
  daddr : UInt32
  deriving DecidableEq

/-- The copies for the neighbours of the other interfaces. The field `ttl` is a `u8`, which is
never below zero. -/
def copiesFor (ifaceList : List Iface) (iface : ℤ) (packet : LsuPacket) : List LsuPacket :=
  let ttl := packet.ttl - 1
  if (0 : ℤ) ≤ ttl.toNat then
    ifaceList.flatMap fun ientry =>
      if ientry.index = iface then []
      else if ientry.numNbr ≠ 0 then
        ientry.nbrList.map fun nbr =>
          { packet with ttl := ttl, saddr := ientry.ip, daddr := nbr.nbrIp }
      else []
  else []

/-- `ip_send_packet` and the interface that it takes, which is that of the route. Without a route
the packet is freed. -/
def ipSendPacket (rtable : List (RtEntry ℤ)) (packet : LsuPacket) : Option (ℤ × LsuPacket) :=
  (longestPrefixMatch rtable packet.daddr).map fun entry => (entry.iface, packet)

/-- The packets that are sent, each with the index of the interface it leaves by. -/
def relay (rtable : List (RtEntry ℤ)) (ifaceList : List Iface) (iface : ℤ) (packet : LsuPacket) :
    List (ℤ × LsuPacket) :=
  (copiesFor ifaceList iface packet).filterMap (ipSendPacket rtable)

/-- `ip_forward_packet`, without the ICMP messages. -/
def ipForwardPacket (rtable : List (RtEntry ℤ)) (packet : LsuPacket) : Option (ℤ × LsuPacket) :=
  if packet.ttl ≤ 1 then none else ipSendPacket rtable { packet with ttl := packet.ttl - 1 }

structure Router where
  routerId : UInt32
  db : List MospfDbEntry
  ifaceList : List Iface
  rtable : List (RtEntry ℤ)

/-- `MOSPF_ALLSPFRouters`. -/
def mospfAllSPFRouters : UInt32 := 0xe0000005

/-- `handle_ip_packet` does not forward the packet. -/
def Router.Addressed (r : Router) (iface : ℤ) (daddr : UInt32) : Prop :=
  (∃ ientry ∈ r.ifaceList, ientry.index = iface ∧ ientry.ip = daddr) ∨ daddr = mospfAllSPFRouters

instance (r : Router) (iface : ℤ) (daddr : UInt32) : Decidable (r.Addressed iface daddr) :=
  inferInstanceAs (Decidable (_ ∨ _))

variable {ρ : Type*}

/-- A packet on the link of an interface. Its chain of relays began with a packet that had the
TTL `injected`, and it is as long as `hops`. -/
structure InFlight (ρ : Type*) where
  sender : ρ
  iface : ℤ
  packet : LsuPacket
  injected : UInt8
  hops : ℕ
  deriving DecidableEq

/-- An LSU that a router has relayed, with the tables of the router at that time. -/
structure Relay (ρ : Type*) where
  router : ρ
  iface : ℤ
  rtable : List (RtEntry ℤ)
  ifaceList : List Iface
  packet : LsuPacket
  copies : List (ℤ × LsuPacket)

structure Flood (ρ : Type*) where
  routers : ρ → Router
  flight : List (InFlight ρ)
  relays : List (Relay ρ)

inductive FloodEvent (ρ : Type*)
  | inject (sender : ρ) (iface : ℤ) (packet : LsuPacket)
  | deliver (m : InFlight ρ) (receiver : ρ) (iface : ℤ)
  /-- The database as the other threads of a router leave it. -/
  | database (router : ρ) (db : List MospfDbEntry)
  | neighbours (router : ρ) (ifaceList : List Iface)
  | routes (router : ρ) (rtable : List (RtEntry ℤ))

/-- A packet that is delivered stays in flight, so that it can be delivered again. -/
def Flood.step [DecidableEq ρ] (link : ρ × ℤ → ρ × ℤ → Bool) (s : Flood ρ) :
    FloodEvent ρ → Option (Flood ρ)
  | .inject sender iface packet =>
    some { s with flight := s.flight ++ [⟨sender, iface, packet, packet.ttl, 0⟩] }
  | .deliver m v iface =>
    if m ∈ s.flight ∧ link (m.sender, m.iface) (v, iface) = true then
      if (s.routers v).Addressed iface m.packet.daddr then
        match handleMospfLsu (s.routers v).routerId (s.routers v).db m.packet.lsu with
        | none => some s
        | some db =>
          let copies := relay (s.routers v).rtable (s.routers v).ifaceList iface m.packet
          some {
            routers := Function.update s.routers v { s.routers v with db := db }
            flight := s.flight ++
              copies.map fun copy => ⟨v, copy.1, copy.2, m.injected, m.hops + 1⟩
            relays := s.relays ++ [⟨v, iface, (s.routers v).rtable, (s.routers v).ifaceList,
              m.packet, copies⟩] }
      else
        some { s with
          flight := s.flight ++ (ipForwardPacket (s.routers v).rtable m.packet).toList.map
            fun copy => ⟨v, copy.1, copy.2, m.injected, m.hops⟩ }
    else none
  | .database v db =>
    some { s with routers := Function.update s.routers v { s.routers v with db := db } }
  | .neighbours v ifaceList =>
    some { s with
      routers := Function.update s.routers v { s.routers v with ifaceList := ifaceList } }
  | .routes v rtable =>
    some { s with routers := Function.update s.routers v { s.routers v with rtable := rtable } }

/-- Routers with any databases before the first packet. -/
def Flood.Initial (s : Flood ρ) : Prop := s.flight = [] ∧ s.relays = []

/-- The other threads write `alive` and `map2mtx` but take no entry out. -/
def keepsEntries (s : Flood ρ) : FloodEvent ρ → Prop
  | .database v db => db.map (fun entry => (entry.rid, entry.seq, entry.array)) =
      (s.routers v).db.map fun entry => (entry.rid, entry.seq, entry.array)
  | _ => True

/-- Each route by the interface that covers the address of a neighbour of another interface is
outdone by a longer route to that neighbour, or by one of its length before it. -/
def LedAway (rtable : List (RtEntry ℤ)) (ifaceList : List Iface) (iface : ℤ) : Prop :=
  ∀ ientry ∈ ifaceList, ientry.index ≠ iface → ientry.numNbr ≠ 0 → ∀ nbr ∈ ientry.nbrList,
    ∀ before entry after, rtable = before ++ entry :: after → entry.iface = iface →
      entry.Matches nbr.nbrIp → Outdone nbr.nbrIp before entry after

/-- A router that stores an LSU of a packet with TTL 0 has no neighbour to relay it to. -/
def ttlLeft (s : Flood ρ) : FloodEvent ρ → Prop
  | .deliver m v iface => m.packet.ttl = 0 → (s.routers v).Addressed iface m.packet.daddr →
      m.packet.lsu.rid ≠ (s.routers v).routerId → Newer (s.routers v).db m.packet.lsu →
        ∀ ientry ∈ (s.routers v).ifaceList,
          ientry.index = iface ∨ ientry.numNbr = 0 ∨ ientry.nbrList = []
  | _ => True

end Model

section Relay

variable {rtable : List (RtEntry ℤ)} {ifaceList : List Iface} {iface : ℤ} {packet : LsuPacket}
  {copy : ℤ × LsuPacket}

/-- The number of neighbours on all interfaces. -/
def neighbourCount (ifaceList : List Iface) : ℕ :=
  (ifaceList.map fun ientry => ientry.nbrList.length).sum

theorem mem_copiesFor {copy : LsuPacket} : copy ∈ copiesFor ifaceList iface packet ↔
    ∃ ientry ∈ ifaceList, ientry.index ≠ iface ∧ ientry.numNbr ≠ 0 ∧ ∃ nbr ∈ ientry.nbrList,
      { packet with ttl := packet.ttl - 1, saddr := ientry.ip, daddr := nbr.nbrIp } = copy := by
  rw [copiesFor, if_pos (Int.natCast_nonneg _), List.mem_flatMap]
  refine exists_congr fun ientry => and_congr_right fun _ => ?_
  split_ifs with hindex hnbr
  · simp [hindex]
  · simp [hindex, hnbr]
  · simp [hindex, not_not.mp hnbr]

/-- A copy is for a neighbour of another interface, and goes where its route leads. -/
theorem mem_relay : copy ∈ relay rtable ifaceList iface packet ↔
    ∃ ientry ∈ ifaceList, ientry.index ≠ iface ∧ ientry.numNbr ≠ 0 ∧ ∃ nbr ∈ ientry.nbrList,
      ∃ entry, longestPrefixMatch rtable nbr.nbrIp = some entry ∧ (entry.iface,
        { packet with ttl := packet.ttl - 1, saddr := ientry.ip, daddr := nbr.nbrIp }) = copy := by
  simp only [relay, List.mem_filterMap, mem_copiesFor, ipSendPacket, Option.map_eq_some_iff]
  constructor
  · rintro ⟨_, ⟨ientry, hmem, hne, hnum, nbr, hnbr, rfl⟩, entry, hroute, rfl⟩
    exact ⟨ientry, hmem, hne, hnum, nbr, hnbr, entry, hroute, rfl⟩
  · rintro ⟨ientry, hmem, hne, hnum, nbr, hnbr, entry, hroute, rfl⟩
    exact ⟨_, ⟨ientry, hmem, hne, hnum, nbr, hnbr, rfl⟩, entry, hroute, rfl⟩

theorem lsu_relay (h : copy ∈ relay rtable ifaceList iface packet) :
    copy.2.lsu = packet.lsu ∧ copy.2.ttl = packet.ttl - 1 := by
  obtain ⟨ientry, -, -, -, nbr, -, entry, -, rfl⟩ := mem_relay.mp h
  exact ⟨rfl, rfl⟩

theorem length_relay_le (rtable : List (RtEntry ℤ)) (ifaceList : List Iface) (iface : ℤ)
    (packet : LsuPacket) :
    (relay rtable ifaceList iface packet).length ≤ neighbourCount ifaceList := by
  apply (List.length_filterMap_le _ _).trans
  rw [copiesFor, if_pos (Int.natCast_nonneg _), List.length_flatMap, neighbourCount]
  refine List.sum_le_sum fun ientry _ => ?_
  split_ifs
  · exact Nat.zero_le _
  · rw [List.length_map]
  · exact Nat.zero_le _

/-- The TTL goes down by one, unless it was zero. -/
theorem toNat_pred {ttl : UInt8} (h : ttl ≠ 0) : (ttl - 1).toNat + 1 = ttl.toNat := by
  have hpos : ttl.toNat ≠ 0 := fun hzero => h (UInt8.toNat_inj.mp hzero)
  have hsub : (ttl - 1).toNat = ttl.toNat - 1 :=
    UInt8.toNat_sub_of_le ttl 1 (UInt8.le_iff_toNat_le.mpr (by
      show 1 ≤ ttl.toNat
      omega))
  omega

theorem ttl_relay (h : copy ∈ relay rtable ifaceList iface packet) (httl : packet.ttl ≠ 0) :
    copy.2.ttl.toNat + 1 = packet.ttl.toNat := by
  rw [(lsu_relay h).2]
  exact toNat_pred httl

/-- A router sends nothing back exactly where no route to its other neighbours leads back. -/
theorem relay_ne_iff : (∀ copy ∈ relay rtable ifaceList iface packet, copy.1 ≠ iface) ↔
    LedAway rtable ifaceList iface := by
  constructor
  · intro h ientry hmem hne hnum nbr hnbr before entry after hsplit hback hmatch
    by_contra hbeats
    have hroute := longestPrefixMatch_of_not_outdone hmatch hbeats
    rw [← hsplit] at hroute
    exact h _ (mem_relay.mpr ⟨ientry, hmem, hne, hnum, nbr, hnbr, entry, hroute, rfl⟩) hback
  · intro h copy hcopy hback
    obtain ⟨ientry, hmem, hne, hnum, nbr, hnbr, entry, hroute, rfl⟩ := mem_relay.mp hcopy
    obtain ⟨before, after, hsplit, hmatch, hbeats⟩ := longestPrefixMatch_spec hroute
    exact hbeats (h ientry hmem hne hnum nbr hnbr before entry after hsplit hback hmatch)

/-- A packet that is forwarded keeps its LSU, and its TTL goes down. -/
theorem ipForwardPacket_some (h : ipForwardPacket rtable packet = some copy) :
    copy.2.lsu = packet.lsu ∧ copy.2.ttl.toNat < packet.ttl.toNat := by
  unfold ipForwardPacket at h
  split_ifs at h with httl
  obtain ⟨entry, -, rfl⟩ := Option.map_eq_some_iff.mp h
  have hpred : (packet.ttl - 1).toNat + 1 = packet.ttl.toNat :=
    toNat_pred fun hzero => httl (by rw [hzero]; decide)
  refine ⟨rfl, ?_⟩
  show (packet.ttl - 1).toNat < packet.ttl.toNat
  omega

theorem entryOf_congr {db db' : List MospfDbEntry}
    (h : db'.map (fun entry => (entry.rid, entry.seq, entry.array)) =
      db.map fun entry => (entry.rid, entry.seq, entry.array)) (rid : UInt32) :
    entryOf db' rid = entryOf db rid := by
  induction db generalizing db' with
  | nil =>
    rw [List.map_nil, List.map_eq_nil_iff] at h
    rw [h]
  | cons entry db ih =>
    obtain ⟨entry', rest, rfl, hentry, hrest⟩ := List.map_eq_cons_iff.mp h
    obtain ⟨hrid, hsame⟩ := Prod.mk.inj hentry
    obtain ⟨hseq, harray⟩ := Prod.mk.inj hsame
    rw [entryOf_cons, entryOf_cons, hrid, hseq, harray, ih hrest]

end Relay

section Once

variable {ρ : Type*} {s t : Flood ρ}

/-- The router and the LSU of a relay. -/
def Relay.key (r : Relay ρ) : ρ × UInt32 × UInt16 :=
  (r.router, r.packet.lsu.rid, r.packet.lsu.seq)

/-- A router that has relayed an LSU has an entry at least as new. -/
structure Flood.Once (s : Flood ρ) : Prop where
  stored : ∀ r ∈ s.relays, ∃ stored ∈ entryOf (s.routers r.router).db r.packet.lsu.rid,
    r.packet.lsu.seq ≤ stored.1
  nodup : (s.relays.map Relay.key).Nodup
  other : ∀ r ∈ s.relays, r.packet.lsu.rid ≠ (s.routers r.router).routerId
  copies : ∀ r ∈ s.relays, r.copies = relay r.rtable r.ifaceList r.iface r.packet

/-- The relays are as before, and the entries and router ids too. -/
theorem Flood.Once.congr (h : s.Once) (hrelays : t.relays = s.relays)
    (hid : ∀ v, (t.routers v).routerId = (s.routers v).routerId)
    (hentry : ∀ v rid, entryOf (t.routers v).db rid = entryOf (s.routers v).db rid) : t.Once := by
  refine ⟨fun r hr => ?_, ?_, fun r hr => ?_, ?_⟩
  · rw [hrelays] at hr
    rw [hentry]
    exact h.stored r hr
  · rw [hrelays]
    exact h.nodup
  · rw [hrelays] at hr
    rw [hid]
    exact h.other r hr
  · rw [hrelays]
    exact h.copies

/-- The relays of one LSU. -/
def Flood.relaysOf (s : Flood ρ) (rid : UInt32) (seq : UInt16) : List (Relay ρ) :=
  s.relays.filter fun r => decide (r.packet.lsu.rid = rid ∧ r.packet.lsu.seq = seq)

theorem Flood.Once.nodup_relaysOf (h : s.Once) (rid : UInt32) (seq : UInt16) :
    ((s.relaysOf rid seq).map (·.router)).Nodup := by
  have hsub : (s.relaysOf rid seq).Sublist s.relays := List.filter_sublist
  have hnodup := (hsub.map Relay.key).nodup h.nodup
  refine List.Nodup.of_map (fun v => (v, rid, seq)) ?_
  rw [List.map_map]
  refine (List.map_congr_left fun r hr => ?_) ▸ hnodup
  obtain ⟨hrid, hseq⟩ := of_decide_eq_true (List.mem_filter.mp hr).2
  show (r.router, r.packet.lsu.rid, r.packet.lsu.seq) = (r.router, rid, seq)
  rw [hrid, hseq]

end Once

section Steps

variable {ρ : Type*} [DecidableEq ρ] {link : ρ × ℤ → ρ × ℤ → Bool} {s t : Flood ρ}
  {m : InFlight ρ} {v : ρ} {iface : ℤ}

/-- The network after a router has stored and relayed an LSU. -/
def Flood.relayed (s : Flood ρ) (m : InFlight ρ) (v : ρ) (iface : ℤ) (db : List MospfDbEntry) :
    Flood ρ where
  routers := Function.update s.routers v { s.routers v with db := db }
  flight := s.flight ++ (relay (s.routers v).rtable (s.routers v).ifaceList iface m.packet).map
    fun copy => ⟨v, copy.1, copy.2, m.injected, m.hops + 1⟩
  relays := s.relays ++ [⟨v, iface, (s.routers v).rtable, (s.routers v).ifaceList, m.packet,
    relay (s.routers v).rtable (s.routers v).ifaceList iface m.packet⟩]

/-- The network after a router has forwarded a packet, or dropped it. -/
def Flood.forwarded (s : Flood ρ) (m : InFlight ρ) (v : ρ) : Flood ρ :=
  { s with
    flight := s.flight ++ (ipForwardPacket (s.routers v).rtable m.packet).toList.map
      fun copy => ⟨v, copy.1, copy.2, m.injected, m.hops⟩ }

omit [DecidableEq ρ] in
theorem Flood.mem_forwarded {m' : InFlight ρ} (h : m' ∈ (s.forwarded m v).flight) :
    m' ∈ s.flight ∨ ∃ copy, ipForwardPacket (s.routers v).rtable m.packet = some copy ∧
      ⟨v, copy.1, copy.2, m.injected, m.hops⟩ = m' := by
  simpa [Flood.forwarded] using h

theorem Flood.routers_relayed_self (s : Flood ρ) (db : List MospfDbEntry) :
    (s.relayed m v iface db).routers v = { s.routers v with db := db } :=
  Function.update_self ..

theorem Flood.routers_relayed_of_ne (s : Flood ρ) (db : List MospfDbEntry) {w : ρ} (h : w ≠ v) :
    (s.relayed m v iface db).routers w = s.routers w :=
  Function.update_of_ne h ..

/-- A packet that is delivered is for another router, or its LSU is dropped, or it is stored and
relayed. -/
theorem deliver_cases (h : s.step link (.deliver m v iface) = some t) :
    m ∈ s.flight ∧ (¬(s.routers v).Addressed iface m.packet.daddr ∧ t = s.forwarded m v ∨
      t = s ∨ (s.routers v).Addressed iface m.packet.daddr ∧
        ∃ db, m.packet.lsu.rid ≠ (s.routers v).routerId ∧
          storeLsu (s.routers v).db m.packet.lsu = some db ∧ t = s.relayed m v iface db) := by
  rw [Flood.step] at h
  split_ifs at h with hflight haddr
  · refine ⟨hflight.1, .inr ?_⟩
    cases hhandle : handleMospfLsu (s.routers v).routerId (s.routers v).db m.packet.lsu with
    | none =>
      rw [hhandle] at h
      exact .inl (Option.some.inj h).symm
    | some db =>
      rw [hhandle] at h
      rw [handleMospfLsu] at hhandle
      split_ifs at hhandle with hown
      exact .inr ⟨haddr, db, hown, hhandle, (Option.some.inj h).symm⟩
  · exact ⟨hflight.1, .inl ⟨haddr, (Option.some.inj h).symm⟩⟩

theorem Flood.Once.relayed {db : List MospfDbEntry} (h : s.Once)
    (hown : m.packet.lsu.rid ≠ (s.routers v).routerId)
    (hstore : storeLsu (s.routers v).db m.packet.lsu = some db) :
    (s.relayed m v iface db).Once := by
  have hnewer := newer_of_storeLsu hstore
  -- Stored sequence numbers only grow.
  have hgrow (r : Relay ρ) (hr : r ∈ s.relays) : ∃ stored ∈
      entryOf ((s.relayed m v iface db).routers r.router).db r.packet.lsu.rid,
      r.packet.lsu.seq ≤ stored.1 := by
    obtain ⟨stored, hentry, hle⟩ := h.stored r hr
    by_cases hv : r.router = v
    · rw [hv, Flood.routers_relayed_self, entryOf_storeLsu hstore]
      split_ifs with hrid
      · refine ⟨_, rfl, UInt16.le_trans hle (UInt16.le_of_lt (hnewer stored ?_))⟩
        rw [hrid, ← hv]
        exact hentry
      · exact ⟨stored, hv ▸ hentry, hle⟩
    · rw [Flood.routers_relayed_of_ne _ _ hv]
      exact ⟨stored, hentry, hle⟩
  have hid (w : ρ) : ((s.relayed m v iface db).routers w).routerId = (s.routers w).routerId := by
    by_cases hw : w = v
    · rw [hw, Flood.routers_relayed_self]
    · rw [Flood.routers_relayed_of_ne _ _ hw]
  refine ⟨fun r hr => ?_, ?_, fun r hr => ?_, fun r hr => ?_⟩
  · rcases List.mem_append.mp hr with hold | hnew
    · exact hgrow r hold
    · obtain rfl := List.mem_singleton.mp hnew
      show ∃ stored ∈ entryOf ((s.relayed m v iface db).routers v).db m.packet.lsu.rid, _
      rw [Flood.routers_relayed_self, entryOf_storeLsu hstore, if_pos rfl]
      exact ⟨_, rfl, UInt16.le_refl _⟩
  · rw [Flood.relayed, List.map_append, List.map_singleton]
    refine List.nodup_append.mpr ⟨h.nodup, List.nodup_singleton _, fun a ha b hb heq => ?_⟩
    rw [List.mem_singleton.mp hb] at heq
    obtain ⟨r, hr, rfl⟩ := List.mem_map.mp ha
    -- A relay of the same LSU would have left an entry as new as it.
    obtain ⟨hv, hlsu⟩ := Prod.mk.inj heq
    obtain ⟨hrid, hseq⟩ := Prod.mk.inj hlsu
    obtain ⟨stored, hentry, hle⟩ := h.stored r hr
    rw [hv, hrid] at hentry
    rw [hseq] at hle
    exact UInt16.not_le.mpr (hnewer stored hentry) hle
  · rw [hid]
    rcases List.mem_append.mp hr with hold | hnew
    · exact h.other r hold
    · obtain rfl := List.mem_singleton.mp hnew
      exact hown
  · rcases List.mem_append.mp hr with hold | hnew
    · exact h.copies r hold
    · obtain rfl := List.mem_singleton.mp hnew
      rfl

theorem Flood.Once.step {e : FloodEvent ρ} (h : s.Once) (hok : keepsEntries s e)
    (hstep : s.step link e = some t) : t.Once := by
  cases e with
  | inject sender iface packet =>
    obtain rfl := Option.some.inj hstep
    exact h.congr rfl (fun _ => rfl) fun _ _ => rfl
  | deliver m v iface =>
    obtain ⟨-, ⟨-, rfl⟩ | rfl | ⟨-, db, hown, hstore, rfl⟩⟩ := deliver_cases hstep
    · exact h.congr rfl (fun _ => rfl) fun _ _ => rfl
    · exact h
    · exact h.relayed hown hstore
  | database v db =>
    obtain rfl := Option.some.inj hstep
    refine h.congr rfl (fun w => ?_) fun w rid => ?_
    · by_cases hw : w = v
      · simp only [hw, Function.update_self]
      · simp only [Function.update_of_ne hw]
    · by_cases hw : w = v
      · simp only [hw, Function.update_self]
        exact entryOf_congr hok rid
      · simp only [Function.update_of_ne hw]
  | neighbours v ifaceList | routes v rtable =>
    obtain rfl := Option.some.inj hstep
    refine h.congr rfl (fun w => ?_) fun w rid => ?_
    all_goals
      by_cases hw : w = v
      · simp only [hw, Function.update_self]
      · simp only [Function.update_of_ne hw]

end Steps

section Flooding

variable {ρ : Type*} [DecidableEq ρ] {link : ρ × ℤ → ρ × ℤ → Bool} {s t : Flood ρ}

/-- As long as no entry is taken out, a router relays an LSU at most once and never its own. It
sends nothing back by the interface that the LSU came from, where the routes of the neighbours on
the others lead away from there, and only there. -/
theorem flood_at_most_once [Fintype ρ]
    (h : Reaches (Flood.step link) keepsEntries Flood.Initial s) :
    (∀ v rid seq, ((s.relaysOf rid seq).filter fun r => decide (r.router = v)).length ≤ 1) ∧
    (∀ r ∈ s.relays, r.packet.lsu.rid ≠ (s.routers r.router).routerId) ∧
    (∀ rid seq (ifaceList : ρ → List Iface),
      (∀ r ∈ s.relaysOf rid seq, r.ifaceList = ifaceList r.router) →
      ((s.relaysOf rid seq).map fun r => r.copies.length).sum ≤
        ∑ v, neighbourCount (ifaceList v)) ∧
    (∀ r ∈ s.relays, (∀ copy ∈ r.copies, copy.1 ≠ r.iface) ↔
      LedAway r.rtable r.ifaceList r.iface) := by
  have honce : s.Once := by
    refine h.invariant Flood.Once ?_ fun _ _ _ => Flood.Once.step
    rintro s ⟨-, hrelays⟩
    have hnone (r : Relay ρ) (hr : r ∈ s.relays) : False := by
      rw [hrelays] at hr
      exact List.not_mem_nil hr
    refine ⟨fun r hr => (hnone r hr).elim, ?_, fun r hr => (hnone r hr).elim,
      fun r hr => (hnone r hr).elim⟩
    rw [hrelays]
    exact List.nodup_nil
  refine ⟨fun v rid seq => ?_, honce.other, fun rid seq ifaceList hfixed => ?_, fun r hr => ?_⟩
  · have hcount := List.nodup_iff_count_le_one.mp (honce.nodup_relaysOf rid seq) v
    rw [List.count, List.countP_map, List.countP_eq_length_filter] at hcount
    refine le_of_eq_of_le (congrArg List.length (List.filter_congr fun r _ => ?_)) hcount
    rfl
  · calc ((s.relaysOf rid seq).map fun r => r.copies.length).sum
        ≤ ((s.relaysOf rid seq).map fun r => neighbourCount (ifaceList r.router)).sum := by
          refine List.sum_le_sum fun r hr => ?_
          rw [honce.copies r (List.mem_filter.mp hr).1, ← hfixed r hr]
          exact length_relay_le _ _ _ _
      _ = (((s.relaysOf rid seq).map (·.router)).map fun v => neighbourCount (ifaceList v)).sum :=
          by rw [List.map_map]; rfl
      _ = ∑ v ∈ ((s.relaysOf rid seq).map (·.router)).toFinset, neighbourCount (ifaceList v) :=
          (List.sum_toFinset _ (honce.nodup_relaysOf rid seq)).symm
      _ ≤ ∑ v, neighbourCount (ifaceList v) :=
          Finset.sum_le_sum_of_subset (Finset.subset_univ _)
  · rw [honce.copies r hr]
    exact relay_ne_iff

/-- A router on a link, and the second one there. -/
def twoRouters (second : Router) : Flood Bool where
  routers v :=
    if v then ⟨1, [], [⟨0, 0x0a000001, 0xffffff00, 1, [⟨2, 0x0a000002, 0xffffff00⟩]⟩],
      [⟨0x0a000000, 0xffffff00, 0, 0⟩]⟩
    else second
  flight := []
  relays := []

/-- It has a neighbour on another link, and routes to both. -/
def secondRouter : Router :=
  ⟨2, [], [⟨0, 0x0a000002, 0xffffff00, 1, [⟨1, 0x0a000001, 0xffffff00⟩]⟩,
      ⟨1, 0x0a000102, 0xffffff00, 1, [⟨3, 0x0a000103, 0xffffff00⟩]⟩],
    [⟨0x0a000000, 0xffffff00, 0, 0⟩, ⟨0x0a000100, 0xffffff00, 0, 1⟩]⟩

/-- Both of its interfaces are in one subnet. -/
def doubleRouter : Router :=
  ⟨2, [], [⟨0, 0x0a000002, 0xffffff00, 1, [⟨1, 0x0a000001, 0xffffff00⟩]⟩,
      ⟨1, 0x0a000003, 0xffffff00, 1, [⟨3, 0x0a000009, 0xffffff00⟩]⟩],
    [⟨0x0a000000, 0xffffff00, 0, 0⟩, ⟨0x0a000000, 0xffffff00, 0, 1⟩]⟩

/-- An LSU of the first router for the second. -/
def firstLsu (ttl : UInt8) : LsuPacket := ⟨⟨1, 0, []⟩, ttl, 0x0a000001, 0x0a000002⟩

def sentFirst (second : Router) (ttl : UInt8) : Flood Bool :=
  { twoRouters second with flight := [⟨true, 0, firstLsu ttl, ttl, 0⟩] }

/-- It has been delivered and relayed. -/
def afterRelay (second : Router) (ttl : UInt8) : Flood Bool :=
  (sentFirst second ttl).relayed ⟨true, 0, firstLsu ttl, ttl, 0⟩ false 0 [newEntry ⟨1, 0, []⟩]

theorem reaches_afterRelay {ok : Flood Bool → FloodEvent Bool → Prop} {second : Router}
    (ttl : UInt8) (hid : second.routerId = 2) (hdb : second.db = [])
    (haddr : second.Addressed 0 0x0a000002)
    (hinject : ok (twoRouters second) (.inject true 0 (firstLsu ttl)))
    (hdeliver : ok (sentFirst second ttl)
      (.deliver ⟨true, 0, firstLsu ttl, ttl, 0⟩ false 0)) :
    Reaches (Flood.step fun a b => a.1 != b.1) ok Flood.Initial (afterRelay second ttl) := by
  have hhandle : handleMospfLsu second.routerId second.db (firstLsu ttl).lsu =
      some [newEntry ⟨1, 0, []⟩] := by
    rw [hid, hdb]
    rfl
  refine .next (e := .deliver ⟨true, 0, firstLsu ttl, ttl, 0⟩ false 0)
    (.next (e := .inject true 0 (firstLsu ttl)) (.start ⟨rfl, rfl⟩) hinject rfl) hdeliver ?_
  have hflight : ⟨true, 0, firstLsu ttl, ttl, 0⟩ ∈ (sentFirst second ttl).flight :=
    List.mem_singleton_self _
  have haddr' : ((sentFirst second ttl).routers false).Addressed 0 (firstLsu ttl).daddr := haddr
  show (sentFirst second ttl).step _ _ = _
  rw [Flood.step, if_pos ⟨hflight, rfl⟩, if_pos haddr']
  show (match handleMospfLsu second.routerId second.db (firstLsu ttl).lsu with
    | none => some (sentFirst second ttl)
    | some db => _) = _
  rw [hhandle]
  rfl

theorem addressed_secondRouter : secondRouter.Addressed 0 0x0a000002 := by decide

theorem flood_at_most_once_two :
    (((afterRelay secondRouter 64).relaysOf 1 0).filter fun r =>
        decide (r.router = false)).length ≤ 1 ∧
      LedAway secondRouter.rtable secondRouter.ifaceList 0 := by
  have hkept := flood_at_most_once
    (reaches_afterRelay 64 rfl rfl addressed_secondRouter trivial trivial)
  exact ⟨hkept.1 false 1 0,
    (hkept.2.2.2 _ (List.mem_singleton_self _)).mp (by decide +kernel)⟩

/-- With both interfaces in one subnet the copy for the neighbour on the second leaves by the
first, from which the LSU has come. -/
theorem relay_leaves_by_arrival : ∃ s : Flood Bool,
    Reaches (Flood.step fun a b => a.1 != b.1) keepsEntries Flood.Initial s ∧
      ∃ r ∈ s.relays, ∃ copy ∈ r.copies, copy.1 = r.iface := by
  refine ⟨afterRelay doubleRouter 64,
    reaches_afterRelay 64 rfl rfl (by decide) trivial trivial, _, List.mem_singleton_self _,
    (0, { firstLsu 63 with saddr := 0x0a000003, daddr := 0x0a000009 }), by decide, rfl⟩

end Flooding

section Hops

variable {ρ : Type*} [DecidableEq ρ] {link : ρ × ℤ → ρ × ℤ → Bool} {s t : Flood ρ}

/-- Every relay has taken one from the TTL. -/
structure Flood.Bounded (s : Flood ρ) : Prop where
  chain : ∀ m ∈ s.flight, m.packet.ttl.toNat + m.hops ≤ m.injected.toNat
  smaller : ∀ r ∈ s.relays, ∀ copy ∈ r.copies, copy.2.ttl < r.packet.ttl

theorem Flood.Bounded.relayed {m : InFlight ρ} {v : ρ} {iface : ℤ} {db : List MospfDbEntry}
    (h : s.Bounded) (hmem : m ∈ s.flight)
    (hcopy : ∀ copy ∈ relay (s.routers v).rtable (s.routers v).ifaceList iface m.packet,
      m.packet.ttl ≠ 0) :
    (s.relayed m v iface db).Bounded := by
  refine ⟨fun m' hm' => ?_, fun r hr copy hin => ?_⟩
  · rcases List.mem_append.mp hm' with hold | hnew
    · exact h.chain m' hold
    · obtain ⟨copy, hin, rfl⟩ := List.mem_map.mp hnew
      have httl := ttl_relay hin (hcopy copy hin)
      have hchain := h.chain m hmem
      show copy.2.ttl.toNat + (m.hops + 1) ≤ m.injected.toNat
      omega
  · rcases List.mem_append.mp hr with hold | hnew
    · exact h.smaller r hold copy hin
    · obtain rfl := List.mem_singleton.mp hnew
      have httl := ttl_relay hin (hcopy copy hin)
      exact UInt8.lt_iff_toNat_lt.mpr (by
        show copy.2.ttl.toNat < m.packet.ttl.toNat
        omega)

theorem Flood.Bounded.step {e : FloodEvent ρ} (h : s.Bounded) (hok : ttlLeft s e)
    (hstep : s.step link e = some t) : t.Bounded := by
  cases e with
  | inject sender iface packet =>
    obtain rfl := Option.some.inj hstep
    refine ⟨fun m hm => ?_, h.smaller⟩
    rcases List.mem_append.mp hm with hold | hnew
    · exact h.chain m hold
    · obtain rfl := List.mem_singleton.mp hnew
      exact le_rfl
  | deliver m v iface =>
    obtain ⟨hmem, ⟨-, rfl⟩ | rfl | ⟨haddr, db, hown, hstore, rfl⟩⟩ := deliver_cases hstep
    · refine ⟨fun m' hm' => ?_, h.smaller⟩
      rcases Flood.mem_forwarded hm' with hold | ⟨copy, hcopy, rfl⟩
      · exact h.chain m' hold
      · have hchain := h.chain m hmem
        have hless := (ipForwardPacket_some hcopy).2
        show copy.2.ttl.toNat + m.hops ≤ m.injected.toNat
        omega
    · exact h
    · have hnewer := newer_of_storeLsu hstore
      refine h.relayed hmem fun copy hin httl => ?_
      obtain ⟨ientry, hientry, hindex, hnum, nbr, hnbr, -⟩ := mem_relay.mp hin
      rcases hok httl haddr hown hnewer ientry hientry with hsame | hzero | hnil
      · exact hindex hsame
      · exact hnum hzero
      · rw [hnil] at hnbr
        exact List.not_mem_nil hnbr
  | database | neighbours | routes =>
    obtain rfl := Option.some.inj hstep
    exact ⟨h.chain, h.smaller⟩

/-- As long as no packet with TTL 0 is relayed, the TTL goes down on every relay, and a chain of
relays is no longer than the TTL it began with. -/
theorem relay_hop_bounded (h : Reaches (Flood.step link) ttlLeft Flood.Initial s) :
    (∀ r ∈ s.relays, ∀ copy ∈ r.copies, copy.2.ttl < r.packet.ttl) ∧
    ∀ m ∈ s.flight, m.hops ≤ m.injected.toNat := by
  have hbounded : s.Bounded := by
    refine h.invariant Flood.Bounded ?_ fun _ _ _ => Flood.Bounded.step
    rintro s ⟨hflight, hrelays⟩
    refine ⟨fun m hm => ?_, fun r hr => ?_⟩
    · rw [hflight] at hm
      exact absurd hm List.not_mem_nil
    · rw [hrelays] at hr
      exact absurd hr List.not_mem_nil
  refine ⟨hbounded.smaller, fun m hm => ?_⟩
  have hchain := hbounded.chain m hm
  omega

theorem relay_hop_bounded_two : ∃ r ∈ (afterRelay secondRouter 64).relays, ∃ copy ∈ r.copies,
    r.packet.ttl = 64 ∧ copy.2.ttl < r.packet.ttl := by
  have hbounded := (relay_hop_bounded
    (reaches_afterRelay 64 rfl rfl addressed_secondRouter trivial fun h => by cases h)).1
  refine ⟨_, List.mem_singleton_self _,
    (1, { firstLsu 63 with saddr := 0x0a000102, daddr := 0x0a000103 }), by decide, rfl, ?_⟩
  exact hbounded _ (List.mem_singleton_self _) _ (by decide)

/-- The copy that is made of a packet with TTL 0 has TTL 255. -/
theorem relay_ttl_wraps : ∃ s : Flood Bool,
    Reaches (Flood.step fun a b => a.1 != b.1) anyStep Flood.Initial s ∧
      ∃ r ∈ s.relays, ∃ copy ∈ r.copies, r.packet.ttl = 0 ∧ copy.2.ttl = 255 :=
  ⟨afterRelay secondRouter 0,
    reaches_afterRelay 0 rfl rfl addressed_secondRouter trivial trivial, _,
    List.mem_singleton_self _,
    (1, { firstLsu 255 with saddr := 0x0a000102, daddr := 0x0a000103 }), by decide, rfl, rfl⟩

end Hops

end NetworkLab.Mospf
