import NetworkLab.ArpStation

/-!
# Stations that resolve each other's addresses

Stations with interfaces on common links. A link loses, duplicates and reorders frames, and every
interface on it may hear a frame. What a cache holds is the address of an interface on a link of
the station, and a packet goes to the interface that has the address it is sent to.
-/
namespace NetworkLab.Arp
open GuardedRuns

variable {ν lam π : Type*}

section Model

/-- The interfaces of each station by their indices, and the links they are on. -/
structure Topology (ν lam : Type*) where
  ifaces : ν → List ℤ
  info : ν → ℤ → IfaceInfo
  link : ν → ℤ → lam

/-- The stations, the frames that have been sent with the interfaces they come from, and the calls
of `iface_send_packet_by_arp`. -/
structure Net (ν π : Type*) where
  station : ν → Station π
  wire : List ((ν × ℤ) × Frame π)
  calls : List (ν × ((ℤ × UInt32) × π))

inductive Net.Event (ν π : Type*)
  | act (n : ν) (a : Action π)
  /-- A frame arrives, for the first time or again. -/
  | deliver (n : ν) (iface : ℤ) (k : ℕ)

/-- The steps that a station takes without hearing a frame. -/
def Action.Local (ifaces : List ℤ) : Action π → Prop
  | .send iface _ _ => iface ∈ ifaces
  | .receive .. => False
  | .append .. | .request .. | .insert .. | .sweep .. | .report => True

instance (ifaces : List ℤ) : ∀ a : Action π, Decidable (a.Local ifaces)
  | .send iface _ _ => inferInstanceAs (Decidable (iface ∈ ifaces))
  | .receive .. => isFalse id
  | .append .. | .request .. | .insert .. | .sweep .. | .report => isTrue trivial

variable [DecidableEq ν]

def Net.act (T : Topology ν lam) (s : Net ν π) (n : ν) (a : Action π) : Option (Net ν π) :=
  ((s.station n).step (T.info n) a).map fun next =>
    { station := Function.update s.station n next.1
      wire := s.wire ++ next.2.map fun sent => ((n, sent.1), sent.2)
      calls := s.calls ++ a.calls.map (n, ·) }

def Net.step [DecidableEq lam] (T : Topology ν lam) (s : Net ν π) :
    Net.Event ν π → Option (Net ν π)
  | .act n a => if a.Local (T.ifaces n) then s.act T n a else none
  | .deliver n iface k =>
    (s.wire[k]?).bind fun sent =>
      if iface ∈ T.ifaces n ∧ (n, iface) ≠ sent.1 ∧
          T.link n iface = T.link sent.1.1 sent.1.2 then
        s.act T n (.receive iface sent.2)
      else none

/-- After `init_ustack` on every station. -/
def Net.Initial (s : Net ν π) : Prop :=
  (∀ n, (s.station n).cache.Empty ∧ (s.station n).missed = [] ∧ (s.station n).asking = [] ∧
    (s.station n).learned = []) ∧ s.wire = [] ∧ s.calls = []

/-- An interface on a link of the station has the two addresses. -/
def Topology.Knows (T : Topology ν lam) (n : ν) (ip4 : UInt32) (mac : Mac) : Prop :=
  ∃ m, ∃ j ∈ T.ifaces m, ∃ i ∈ T.ifaces n, T.link m j = T.link n i ∧ T.info m j = ⟨mac, ip4⟩

/-- The station has been called with the packet, for an address on one of its interfaces. -/
def Net.Called (T : Topology ν lam) (s : Net ν π) (n : ν) (key : ℤ × UInt32) (packet : π) : Prop :=
  key.1 ∈ T.ifaces n ∧ (n, (key, packet)) ∈ s.calls

/-- The packets that a station has been called with. -/
def Net.callsOf (s : Net ν π) (n : ν) : List π :=
  (s.calls.filter fun call => decide (call.1 = n)).map fun call => call.2.2

/-- The packets that a station has put on its links. -/
def Net.packetsOf (s : Net ν π) (n : ν) : List π :=
  ipPackets ((s.wire.filter fun sent => decide (sent.1.1 = n)).map Prod.snd)

end Model

section Invariant

variable [DecidableEq ν] {T : Topology ν lam} {s t : Net ν π} {n : ν} {a : Action π}

structure Net.Right (T : Topology ν lam) (s : Net ν π) : Prop where
  stations : ∀ n, (s.station n).Honest (T.ifaces n) (T.Knows n) (s.Called T n)
  frames : ∀ sent ∈ s.wire, sent.1.2 ∈ T.ifaces sent.1.1 ∧
    FrameRight (T.info sent.1.1) (T.Knows sent.1.1) (s.Called T sent.1.1) (sent.1.2, sent.2)
  balanced : ∀ n, (s.station n).Balanced (s.callsOf n) (s.packetsOf n)
  accounted : ∀ n, (s.station n).cache.Accounted

/-- The station steps, and the others do not. -/
theorem Net.act_cases (h : s.act T n a = some t) :
    ∃ next frames, (s.station n).step (T.info n) a = some (next, frames) ∧
      t.station = Function.update s.station n next ∧
      t.wire = s.wire ++ frames.map (fun sent => ((n, sent.1), sent.2)) ∧
      t.calls = s.calls ++ a.calls.map (n, ·) := by
  obtain ⟨next, hnext, rfl⟩ := Option.map_eq_some_iff.mp h
  exact ⟨next.1, next.2, hnext, rfl, rfl, rfl⟩

theorem Net.callsOf_act (hcalls : t.calls = s.calls ++ a.calls.map (n, ·)) (m : ν) :
    t.callsOf m = s.callsOf m ++ if n = m then a.calls.map Prod.snd else [] := by
  rw [callsOf, hcalls, List.filter_append, List.map_append, List.filter_map, List.map_map]
  by_cases hm : n = m
  · simp [callsOf, hm, Function.comp_def]
  · simp [callsOf, hm, Function.comp_def]

theorem Net.packetsOf_act {frames : List (ℤ × Frame π)}
    (hwire : t.wire = s.wire ++ frames.map fun sent => ((n, sent.1), sent.2)) (m : ν) :
    t.packetsOf m = s.packetsOf m ++ if n = m then ipPackets (frames.map Prod.snd) else [] := by
  rw [packetsOf, hwire, List.filter_append, List.map_append, ipPackets_append, List.filter_map,
    List.map_map]
  by_cases hm : n = m
  · simp [packetsOf, hm, Function.comp_def]
  · simp [packetsOf, hm, Function.comp_def, ipPackets]

theorem Net.Right.act (h : s.Right T)
    (hcalled : ∀ iface dstIp packet, a = .send iface dstIp packet → iface ∈ T.ifaces n)
    (hheard : ∀ iface frame arp, a = .receive iface frame → frame.payload = .arp arp →
      iface ∈ T.ifaces n ∧ T.Knows n (ntohl arp.arpSpa) arp.arpSha)
    (hact : s.act T n a = some t) : t.Right T := by
  obtain ⟨next, frames, hstep, hstation, hwire, hcalls⟩ := Net.act_cases hact
  have hmono (m : ν) (key : ℤ × UInt32) (packet : π) (hold : s.Called T m key packet) :
      t.Called T m key packet := by
    refine ⟨hold.1, ?_⟩
    rw [hcalls]
    exact List.mem_append_left _ hold.2
  have hnew (iface : ℤ) (dstIp : UInt32) (packet : π) (ha : a = .send iface dstIp packet) :
      t.Called T n (iface, dstIp) packet := by
    refine ⟨hcalled iface dstIp packet ha, ?_⟩
    rw [hcalls, ha]
    exact List.mem_append_right _ List.mem_cons_self
  obtain ⟨hhonest, hframes⟩ := ((h.stations n).mono (hmono n)).step (fun _ _ hc => hc.1) hnew
    hheard hstep
  refine ⟨fun m => ?_, fun sent hsent => ?_, fun m => ?_, fun m => ?_⟩
  · rw [hstation]
    by_cases hm : m = n
    · rw [hm, Function.update_self]
      exact hhonest
    · rw [Function.update_of_ne hm]
      exact (h.stations m).mono (hmono m)
  · rw [hwire] at hsent
    rcases List.mem_append.mp hsent with hold | hsent
    · exact ⟨(h.frames sent hold).1, (h.frames sent hold).2.mono (hmono _)⟩
    · obtain ⟨frame, hframe, rfl⟩ := List.mem_map.mp hsent
      exact hframes frame hframe
  · rw [Net.callsOf_act hcalls, Net.packetsOf_act hwire, hstation]
    by_cases hm : m = n
    · rw [hm, Function.update_self, if_pos rfl, if_pos rfl]
      exact (h.balanced n).step hstep
    · rw [Function.update_of_ne hm, if_neg (Ne.symm hm), if_neg (Ne.symm hm), List.append_nil,
        List.append_nil]
      exact h.balanced m
  · rw [hstation]
    by_cases hm : m = n
    · rw [hm, Function.update_self]
      rcases Station.cache_step hstep with hsame | ⟨e, hcache⟩
      · rw [hsame]
        exact h.accounted n
      · exact (h.accounted n).step hcache
    · rw [Function.update_of_ne hm]
      exact h.accounted m

theorem Net.Right.step [DecidableEq lam] {e : Net.Event ν π} (h : s.Right T)
    (hstep : s.step T e = some t) : t.Right T := by
  cases e with
  | act n a =>
    rw [Net.step] at hstep
    split_ifs at hstep with hlocal
    refine h.act (fun iface dstIp packet ha => ?_) (fun iface frame arp ha => ?_) hstep
    · rw [ha] at hlocal
      exact hlocal
    · rw [ha] at hlocal
      exact absurd hlocal not_false
  | deliver n iface k =>
    obtain ⟨sent, hk, hstep⟩ := Option.bind_eq_some_iff.mp hstep
    split_ifs at hstep with hhears
    obtain ⟨hiface, -, hlink⟩ := hhears
    refine h.act (fun _ _ _ ha => by cases ha) (fun iface' frame arp ha harp => ?_) hstep
    obtain ⟨rfl, rfl⟩ := Action.receive.inj ha
    obtain ⟨hsource, -, hpayload⟩ := h.frames sent (List.mem_of_getElem? hk)
    rw [harp] at hpayload
    refine ⟨hiface, sent.1.1, sent.1.2, hsource, iface, hiface, hlink.symm, ?_⟩
    rw [hpayload.1, hpayload.2]

theorem Net.Initial.right (h : s.Initial) : s.Right T := by
  obtain ⟨hstations, hwire, hcalls⟩ := h
  refine ⟨fun n => ?_, fun sent hsent => ?_, fun n => ?_, fun n => ?_⟩
  · obtain ⟨⟨hinit, hempty⟩, hmissed, hasking, hlearned⟩ := hstations n
    refine ⟨fun i hi => ?_, ?_, ?_, ?_, ?_⟩
    · rw [hempty i] at hi
      cases hi
    · rw [hlearned]
      exact List.forall_mem_nil _
    · rw [hmissed]
      exact List.forall_mem_nil _
    · rw [hasking]
      exact List.forall_mem_nil _
    · rw [hinit.1]
      exact List.forall_mem_nil _
  · rw [hwire] at hsent
    exact absurd hsent List.not_mem_nil
  · obtain ⟨⟨⟨-, -, -, happended, hsent, -, -⟩, -⟩, hmissed, -, -⟩ := hstations n
    rw [Station.Balanced, Net.callsOf, Net.packetsOf, hcalls, hwire, happended, hsent, hmissed]
    rfl
  · exact (hstations n).1.1.accounted

end Invariant

section Runs

variable [DecidableEq ν] [DecidableEq lam] {T : Topology ν lam} {s : Net ν π}

theorem Net.Right.of_reaches (h : Reaches (Net.step T) anyStep Net.Initial s) : s.Right T :=
  h.invariant (Net.Right T) (fun _ => Net.Initial.right) fun _ _ _ hs _ => hs.step

/-- Whatever is lost, repeated or overtaken: a cache holds addresses of interfaces that the station
can hear, a frame has the addresses of the interface that has sent it, an IP packet goes to the
interface with the address it is sent to, and each packet is at one place, on the wire once at
most. -/
theorem stations_resolve_right (h : Reaches (Net.step T) anyStep Net.Initial s) :
    (∀ n i, ((s.station n).cache.entries i).valid = true →
      T.Knows n ((s.station n).cache.entries i).ip4 ((s.station n).cache.entries i).mac) ∧
    (∀ sent ∈ s.wire, sent.1.2 ∈ T.ifaces sent.1.1 ∧
      FrameRight (T.info sent.1.1) (T.Knows sent.1.1) (s.Called T sent.1.1)
        (sent.1.2, sent.2)) ∧
    ∀ n, (s.callsOf n : Multiset π) = s.packetsOf n +
      ((s.station n).missed.map Prod.snd : Multiset π) +
      ((s.station n).cache.reqList.flatMap (·.cachedPackets) : Multiset π) +
      (s.station n).cache.pktList + (s.station n).cache.reported := by
  have hright := Net.Right.of_reaches h
  refine ⟨fun n => (hright.stations n).entries, hright.frames, fun n => ?_⟩
  have hbalanced := hright.balanced n
  rw [Station.Balanced, (hright.accounted n).conserved] at hbalanced
  refine add_right_cancel (b := ((s.station n).cache.sent.map (·.packet) : Multiset π)) ?_
  rw [hbalanced]
  abel

/-- Two stations on a link. -/
def pair : Topology Bool Unit where
  ifaces _ := [1]
  info n _ := if n then ⟨Vector.replicate 6 2, 20⟩ else ⟨Vector.replicate 6 1, 10⟩
  link _ _ := ()

/-- Nothing has been sent yet. -/
def quiet : Net Bool ℕ :=
  ⟨fun _ => ⟨⟨fun _ => ⟨0, Vector.replicate 6 0, 0, false⟩, [], [], [], 0, [], [], [], []⟩, [], [],
    []⟩, [], []⟩

theorem initial_quiet : quiet.Initial :=
  ⟨fun _ => ⟨⟨⟨rfl, rfl, rfl, rfl, rfl, rfl, rfl⟩, fun _ => rfl⟩, rfl, rfl, rfl⟩, rfl, rfl⟩

/-- A packet waits for the reply to an ARP request. -/
def pairEvents : List (Net.Event Bool ℕ) :=
  [.act false (.send 1 20 7), .act false (.append 0 0), .act false (.request 0),
    .deliver true 1 0, .deliver false 1 1, .act false (.insert 0 1 3)]

theorem stations_resolve_right_pair :
    ∃ s : Net Bool ℕ, s.packetsOf false = [7] ∧ (∀ sent ∈ s.wire, sent.1.2 ∈ pair.ifaces sent.1.1 ∧
      FrameRight (pair.info sent.1.1) (pair.Knows sent.1.1) (s.Called pair sent.1.1)
        (sent.1.2, sent.2)) := by
  refine ⟨(exec (Net.step pair) anyStep quiet pairEvents).get (by decide +kernel),
    by decide +kernel, ?_⟩
  exact (stations_resolve_right (.of_exec (.start initial_quiet) (Option.some_get _).symm)).2.1

end Runs

end NetworkLab.Arp
