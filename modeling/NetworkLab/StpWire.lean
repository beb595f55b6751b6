import NetworkLab.CodedRuns
import NetworkLab.MospfWire
import NetworkLab.StpCosts
import NetworkLab.StpFrames
import NetworkLab.StpSpanningTree
import NetworkLab.StpSwitch

/-!
# Spanning tree protocol: the configs as packets

`stp_port_send_config` and `stp_port_send_packet` put the fields of a config into a packet, and
`handle_packet` takes them out of the memory that a packet has been received into. A network in
which packets are sent does what the network of configs does.
-/
namespace NetworkLab.Stp
open GuardedRuns
open Mospf (HasBytes hasBytes_append ntohs_of_hasBytes ntohl_of_hasBytes htonl_htonl
  word32_of_hasBytes)

section Model

def stpProtocolId : UInt16 := 0

def stpProtocolVersion : UInt8 := 0

/-- `STP_MAX_AGE` in ticks. -/
def stpMaxAge : ℤ := 20000 * 256 / 1000

/-- `STP_FWD_DELAY` in ticks. -/
def stpFwdDelay : ℤ := 15000 * 256 / 1000

def llcDsapSnap : UInt8 := 0x42

def llcSsapSnap : UInt8 := 0x42

def llcCntlSnap : UInt8 := 3

/-- A double word in the memory of a little-endian machine. -/
def bytes64 (w : UInt64) : List UInt8 := bytes32 w.toUInt32 ++ bytes32 (w >>> 32).toUInt32

def wire64 (w : UInt64) : List UInt8 := bytes64 (htonll w)

/-- The message that `stp_port_send_config` builds. -/
def stpConfigBytes (config : StpConfig) : List UInt8 :=
  wire16 stpProtocolId ++ [stpProtocolVersion, stpTypeConfig, 0] ++
    (wire64 (.ofNat config.rootId) ++ (wire32 (.ofInt config.rootPathCost) ++
      (wire64 (.ofNat config.switchId) ++ (wire16 (.ofNat config.portId) ++
        (wire16 0 ++ wire16 (.ofInt stpMaxAge) ++ wire16 (.ofInt stpHelloTime) ++
          wire16 (.ofInt stpFwdDelay))))))

/-- What `stp_port_send_packet` sends from an interface with this address. -/
def stpPacket (mac : Vector UInt8 6) (msg : List UInt8) : List UInt8 :=
  ethStpAddr ++ (mac.toList ++ (wire16 (.ofNat (llcHdrSize + msg.length)) ++
    [llcDsapSnap, llcSsapSnap, llcCntlSnap])) ++ msg

variable {V : Type*} {net : Topology V}

/-- The switches, and the packets under way with the ends that they are for. -/
structure WireWorld (net : Topology V) where
  switches : ∀ v, Switch (net.nports v)
  flight : List (net.End × List UInt8)

def WireWorld.initial (net : Topology V) : WireWorld net :=
  ⟨fun v => stpInit (net.nports v) (net.switchId v), []⟩

/-- The packets for the configs that a switch sends. -/
def transmitPackets (mac : net.End → Vector UInt8 6) (v : V)
    (sends : List (Fin (net.nports v) × StpConfig)) : List (net.End × List UInt8) :=
  sends.filterMap fun m => (net.peer ⟨v, m.1⟩).map fun e =>
    (e, stpPacket (mac ⟨v, m.1⟩) (stpConfigBytes m.2))

/-- A packet is received into memory that goes on behind it. -/
inductive WireEvent (net : Topology V)
  | hello (v : V)
  | deliver (e : net.End) (packet : List UInt8) (beyond : ℕ → UInt8)

def received (packet : List UInt8) (beyond : ℕ → UInt8) (i : ℕ) : UInt8 :=
  packet.getD i (beyond i)

def stepWire [DecidableEq V] (mac : net.End → Vector UInt8 6) (w : WireWorld net) :
    WireEvent net → Option (WireWorld net)
  | .hello v =>
    if (w.switches v).helloTimer then
      some { w with flight := w.flight ++ transmitPackets mac v (sendConfig (w.switches v)) }
    else none
  | .deliver e packet beyond =>
    if (e, packet) ∈ w.flight then
      let handled := handlePacket (w.switches e.1) ⟨e.2, received packet beyond⟩
      some ⟨Function.update w.switches e.1 handled.1,
        w.flight.erase (e, packet) ++ transmitPackets mac e.1 handled.2⟩
    else none

/-- The packet that a config has come in. -/
def configPacket (mac : net.End → Vector UInt8 6) (m : net.End × StpConfig) :
    net.End × List UInt8 :=
  (m.1, stpPacket (((net.peer m.1).map mac).getD (.replicate 6 0)) (stpConfigBytes m.2))

/-- A world of configs with packets in their place. -/
def World.wire (mac : net.End → Vector UInt8 6) (w : World net) : WireWorld net :=
  ⟨w.switches, w.flight.map (configPacket mac)⟩

/-- The config that is read from a packet. -/
def decode (packet : List UInt8) : StpConfig := stpConfig (received packet fun _ => 0)

def WireEvent.decode : WireEvent net → Event net
  | .hello v => .hello v
  | .deliver e packet _ => .deliver e (Stp.decode packet)

def WireWorld.decode (x : WireWorld net) : World net :=
  ⟨x.switches, x.flight.map fun m => (m.1, Stp.decode m.2)⟩

/-- The values that the fields of the message can hold. -/
structure StpConfig.Fits (config : StpConfig) : Prop where
  rootId : config.rootId < 2 ^ 64
  rootPathCost : 0 ≤ config.rootPathCost ∧ config.rootPathCost < 2 ^ 31
  switchId : config.switchId < 2 ^ 64
  portId : config.portId < 2 ^ 16

end Model

section Fields

variable {packet : ℕ → UInt8} {i : ℕ}

/-- The halves of a double word. -/
theorem halves_eq_iff {w w' : UInt64} :
    w.toUInt32 = w'.toUInt32 ∧ (w >>> 32).toUInt32 = (w' >>> 32).toUInt32 ↔ w = w' := by
  refine ⟨fun h => ?_, fun h => h ▸ ⟨rfl, rfl⟩⟩
  have hlow := congrArg UInt32.toNat h.1
  have hhigh := congrArg UInt32.toNat h.2
  have hw := w.toNat_lt
  have hw' := w'.toNat_lt
  simp [Nat.shiftRight_eq_div_pow] at hlow hhigh
  apply UInt64.toNat_inj.mp
  omega

theorem toUInt32_join (high low : UInt32) :
    ((high.toUInt64 <<< 32) ||| low.toUInt64).toUInt32 = low := by
  apply UInt32.toBitVec_inj.mp
  ext i hi
  simp

theorem toUInt32_join_shift (high low : UInt32) :
    (((high.toUInt64 <<< 32) ||| low.toUInt64) >>> 32).toUInt32 = high := by
  apply UInt32.toBitVec_inj.mp
  ext i hi
  have hshift : 32 + i < 64 := by omega
  simp [hshift, BitVec.getLsbD_eq_getElem hi, hi.trans (show 32 < 64 by decide)]

theorem htonll_htonll (w : UInt64) : htonll (htonll w) = w := by
  apply halves_eq_iff.mp
  constructor
  · rw [htonll, toUInt32_join, htonll, toUInt32_join_shift, htonl_htonl]
  · rw [htonll, toUInt32_join_shift, htonll, toUInt32_join, htonl_htonl]

theorem word64_of_hasBytes {w : UInt64} (h : HasBytes packet i (bytes64 w)) :
    word64 packet i = w := by
  obtain ⟨hlow, hhigh⟩ := hasBytes_append.mp h
  have hlow' : word32 packet i = w.toUInt32 := word32_of_hasBytes hlow
  have hhigh' : word32 packet (i + 4) = (w >>> 32).toUInt32 := word32_of_hasBytes hhigh
  rw [word64, hlow', hhigh']
  apply UInt64.toNat_inj.mp
  have hw := w.toNat_lt
  simp [Nat.shiftLeft_eq, Nat.shiftRight_eq_div_pow]
  omega

theorem ntohll_of_hasBytes {w : UInt64} (h : HasBytes packet i (wire64 w)) :
    ntohll (word64 packet i) = w := by
  rw [word64_of_hasBytes h, ntohll, htonll_htonll]

/-- A cost that is not negative comes back as it was. -/
theorem toInt_ofInt {cost : ℤ} (hpos : 0 ≤ cost) (hlt : cost < 2 ^ 31) :
    (UInt32.ofInt cost).toInt32.toInt = cost := by
  have hnat : (UInt32.ofInt cost).toBitVec.toNat = cost.toNat := by
    simp [UInt32.ofInt]
    omega
  have hint : (UInt32.ofInt cost).toInt32.toInt = (UInt32.ofInt cost).toBitVec.toInt := rfl
  rw [hint, BitVec.toInt_eq_toNat_of_lt, hnat]
  · exact Int.toNat_of_nonneg hpos
  · omega

variable {config : StpConfig}

/-- The fields of a message in memory. -/
theorem StpConfig.Fits.stpConfig_eq (h : config.Fits)
    (hbytes : HasBytes packet (etherHdrSize + llcHdrSize) (stpConfigBytes config)) :
    stpConfig packet = config := by
  obtain ⟨-, hbytes⟩ := hasBytes_append.mp hbytes
  obtain ⟨hroot, hbytes⟩ := hasBytes_append.mp hbytes
  obtain ⟨hcost, hbytes⟩ := hasBytes_append.mp hbytes
  obtain ⟨hswitch, hbytes⟩ := hasBytes_append.mp hbytes
  obtain ⟨hport, -⟩ := hasBytes_append.mp hbytes
  have hroot' : ntohll (word64 packet 22) = .ofNat config.rootId := ntohll_of_hasBytes hroot
  have hcost' : ntohl (word32 packet 30) = .ofInt config.rootPathCost := ntohl_of_hasBytes hcost
  have hswitch' : ntohll (word64 packet 34) = .ofNat config.switchId := ntohll_of_hasBytes hswitch
  have hport' : ntohs (word16 packet 42) = .ofNat config.portId := ntohs_of_hasBytes hport
  simp only [stpConfig, etherHdrSize, llcHdrSize, Nat.reduceAdd, hroot', hcost', hswitch', hport']
  rw [toInt_ofInt h.rootPathCost.1 h.rootPathCost.2, UInt64.toNat_ofNat_of_lt' h.rootId,
    UInt64.toNat_ofNat_of_lt' h.switchId, UInt16.toNat_ofNat_of_lt' h.portId]

theorem hasBytes_received (packet : List UInt8) (beyond : ℕ → UInt8) :
    HasBytes (received packet beyond) 0 packet := by
  intro k hk
  simp [received, hk]

/-- The message follows the two headers. -/
theorem hasBytes_msg (mac : Vector UInt8 6) (msg : List UInt8) (beyond : ℕ → UInt8) :
    HasBytes (received (stpPacket mac msg) beyond) (etherHdrSize + llcHdrSize) msg ∧
      received (stpPacket mac msg) beyond 0 = 0x01 := by
  obtain ⟨hheaders, hmsg⟩ := hasBytes_append.mp (hasBytes_received (stpPacket mac msg) beyond)
  have hlength : (ethStpAddr ++ (mac.toList ++ (wire16 (.ofNat (llcHdrSize + msg.length)) ++
      [llcDsapSnap, llcSsapSnap, llcCntlSnap]))).length = etherHdrSize + llcHdrSize := by
    simp [ethStpAddr, wire16, bytes16, etherHdrSize, llcHdrSize]
  rw [hlength, Nat.zero_add] at hmsg
  exact ⟨hmsg, (hasBytes_append.mp hheaders).1 0 (show 0 < 6 by decide)⟩

/-- A packet that has been sent is taken for the config that it was made of. -/
theorem StpConfig.Fits.handlePacket_eq {n : ℕ} (h : config.Fits) (stp : Switch n) (p : Fin n)
    (mac : Vector UInt8 6) (beyond : ℕ → UInt8) :
    handlePacket stp ⟨p, received (stpPacket mac (stpConfigBytes config)) beyond⟩ =
      handleConfig stp p config := by
  obtain ⟨hmsg, hfirst⟩ := hasBytes_msg mac (stpConfigBytes config) beyond
  obtain ⟨hheader, -⟩ := hasBytes_append.mp hmsg
  have htype : msgType (received (stpPacket mac (stpConfigBytes config)) beyond) = stpTypeConfig :=
    (hasBytes_append.mp hheader).2 1 (show 1 < 3 by decide)
  rw [Stp.handlePacket_eq, if_pos ⟨hfirst, htype⟩, h.stpConfig_eq hmsg]

theorem StpConfig.Fits.decode_eq (h : config.Fits) (mac : Vector UInt8 6) :
    decode (stpPacket mac (stpConfigBytes config)) = config :=
  h.stpConfig_eq (hasBytes_msg mac _ _).1

end Fields

section Network

variable {V : Type*} {net : Topology V} {w w' : World net} {mac : net.End → Vector UInt8 6}

/-- What the network has to be like for the fields to hold its values. -/
structure Topology.Sized [Fintype V] (net : Topology V) : Prop where
  nports : ∀ v, net.nports v ≤ stpMaxPorts
  switchId : ∀ v, net.switchId v < 2 ^ 64
  card : Fintype.card V ≤ 2 ^ 31

/-- What holds in every run of the network of configs. -/
structure Sendable (w : World net) : Prop where
  inv : Inv w
  costs : Costs w
  numbered : ∀ v, (w.switches v).Numbered

theorem sendable_initial (net : Topology V) : Sendable (World.initial net) :=
  ⟨inv_initial net, costs_initial net, fun _ _ => rfl⟩

theorem Sendable.step [DecidableEq V] {ev : Event net} (h : Sendable w)
    (hs : step w ev = some w') : Sendable w' :=
  ⟨h.inv.step hs, h.costs.step h.inv hs, numbered_step h.inv h.numbered hs⟩

theorem Switch.Numbered.portId_lt {n : ℕ} {stp : Switch n} (h : stp.Numbered)
    (hn : n ≤ stpMaxPorts) (i : Fin n) : (stp.ports i).portId < 2 ^ 16 := by
  have hi : i.val + 1 < 2 ^ 16 := by
    have hlt := i.isLt
    simp only [stpMaxPorts] at hn
    omega
  rw [h i]
  exact Nat.or_lt_two_pow (by decide) hi

/-- The configs in flight fit into a packet. -/
theorem Sendable.fits [Fintype V] (hnet : net.Sized) (h : Sendable w) {m : net.End × StpConfig}
    (hm : m ∈ w.flight) : m.2.Fits := by
  obtain ⟨e, hpeer, hrep⟩ := h.inv.flight m hm
  obtain ⟨o, -, hroot, -⟩ := hrep.sound
  obtain ⟨hpos, hlt⟩ := (h.costs.flight m hm e hpeer).cost_bounds
  have hport : m.2.portId = ((w.switches e.1).ports e.2).portId := hrep.port_eq
  have hswitch : m.2.switchId = net.switchId e.1 := hrep.switch_eq
  have hroot' : m.2.rootId = net.switchId o := hroot
  constructor
  · rw [hroot']
    exact hnet.switchId o
  · have hcard := hnet.card
    omega
  · rw [hswitch]
    exact hnet.switchId e.1
  · rw [hport]
    exact (h.numbered e.1).portId_lt (hnet.nports e.1) e.2

theorem Sendable.decode_wire [Fintype V] (hnet : net.Sized) (h : Sendable w) :
    (w.wire mac).decode = w := by
  have hmap : (w.flight.map (configPacket mac)).map (fun m => (m.1, decode m.2)) = w.flight := by
    rw [List.map_map]
    refine (List.map_congr_left fun m hm => ?_).trans (List.map_id _)
    simp [configPacket, (h.fits hnet hm).decode_eq]
  exact congrArg (World.mk w.switches) hmap

/-- The packets for the configs of a switch are those that it sends. -/
theorem transmitPackets_eq (mac : net.End → Vector UInt8 6) (v : V)
    (sends : List (Fin (net.nports v) × StpConfig)) :
    transmitPackets mac v sends = (transmit net v sends).map (configPacket mac) := by
  rw [transmitPackets, transmit, List.map_filterMap]
  apply List.filterMap_congr
  intro m _
  cases hpeer : net.peer ⟨v, m.1⟩ with
  | none => simp
  | some e => simp [configPacket, net.peer_symm _ _ hpeer]

/-- A packet in flight is that of one config only. -/
theorem Sendable.eq_of_configPacket [Fintype V] (hnet : net.Sized) (h : Sendable w)
    {m m' : net.End × StpConfig} (hm : m ∈ w.flight) (hm' : m' ∈ w.flight)
    (heq : configPacket mac m = configPacket mac m') : m = m' := by
  have hend : (configPacket mac m).1 = (configPacket mac m').1 := congrArg Prod.fst heq
  have hpacket := congrArg (fun x => decode x.2) heq
  simp only [configPacket, (h.fits hnet hm).decode_eq, (h.fits hnet hm').decode_eq] at hpacket
  exact Prod.ext hend hpacket

variable (mac) in
theorem decode_deliver [DecidableEq V] [Fintype V] (hnet : net.Sized) (h : Sendable w)
    {m : net.End × StpConfig} (hm : m ∈ w.flight) (beyond : ℕ → UInt8) :
    (WireEvent.deliver m.1 (configPacket mac m).2 beyond).decode = Event.deliver m.1 m.2 ∧
      stepWire mac (w.wire mac) (.deliver m.1 (configPacket mac m).2 beyond) =
        (step w (.deliver m.1 m.2)).map (World.wire mac) := by
  have hfits := h.fits hnet hm
  have hmem : (m.1, (configPacket mac m).2) ∈ (w.wire mac).flight :=
    List.mem_map_of_mem hm
  have herase : (w.wire mac).flight.erase (m.1, (configPacket mac m).2) =
      (w.flight.erase (m.1, m.2)).map (configPacket mac) :=
    erase_map_of_inj fun m' hm' heq => h.eq_of_configPacket hnet hm' hm heq
  constructor
  · simp [WireEvent.decode, configPacket, hfits.decode_eq]
  · rw [stepWire, if_pos hmem, Stp.step, if_pos (by exact hm), herase]
    simp only [configPacket, hfits.handlePacket_eq]
    simp [World.wire, transmitPackets_eq]

theorem codes_wire [DecidableEq V] [Fintype V] (hnet : net.Sized)
    (mac : net.End → Vector UInt8 6) :
    Codes step (stepWire mac) Sendable (World.wire mac) WireEvent.decode := by
  have hhello (w : World net) (v : V) : stepWire mac (w.wire mac) (.hello v) =
      (step w (.hello v)).map (World.wire mac) := by
    by_cases htimer : (w.switches v).helloTimer
    · simp [stepWire, Stp.step, World.wire, htimer, transmitPackets_eq]
    · simp [stepWire, Stp.step, World.wire, htimer]
  refine ⟨fun w ev w' h hs => h.step hs, fun w ev w' h hs => ?_, fun w ev x h hs => ?_⟩
  · cases ev with
    | hello v => exact ⟨.hello v, rfl, by rw [hhello, hs]; simp⟩
    | deliver e config =>
      have hm : (e, config) ∈ w.flight := by
        rw [Stp.step] at hs
        split_ifs at hs with hm
        exact hm
      obtain ⟨hevent, hstep⟩ := decode_deliver mac hnet h hm fun _ => 0
      exact ⟨_, hevent, by rw [hstep, hs]; simp⟩
  · cases ev with
    | hello v =>
      rw [hhello] at hs
      simpa [WireEvent.decode, eq_comm] using hs
    | deliver e packet beyond =>
      have hpacket : (e, packet) ∈ (w.wire mac).flight := by
        rw [stepWire] at hs
        split_ifs at hs with hpacket
        exact hpacket
      obtain ⟨m, hm, heq⟩ := List.mem_map.mp hpacket
      obtain ⟨rfl, rfl⟩ := Prod.mk.inj heq
      obtain ⟨hevent, hstep⟩ := decode_deliver mac hnet h hm beyond
      have hs' := hstep.symm.trans hs
      rw [← hevent] at hs'
      obtain ⟨t, ht, hx⟩ := Option.map_eq_some_iff.mp hs'
      exact ⟨t, ht, hx.symm⟩

/-- The runs of the network of packets, whatever addresses the interfaces have and whatever lies
in memory behind a packet, are the runs of the network of configs: under the same guard the same
states are reached, with a packet in flight for each config. -/
theorem packets_refine_configs [DecidableEq V] [Fintype V] (hnet : net.Sized)
    (mac : net.End → Vector UInt8 6) (ok : World net → Event net → Prop) (x : WireWorld net) :
    Reaches (stepWire mac) (fun x ev => ok x.decode ev.decode)
        (fun x => x = WireWorld.initial net) x ↔
      ∃ w, Reaches step ok (fun w => w = World.initial net) w ∧ x = w.wire mac :=
  (codes_wire hnet mac).reaches_iff (fun w ev h => by rw [h.decode_wire hnet])
    (sendable_initial net) x

end Network

section Instance

theorem ring_sized : ring.Sized := ⟨ring_ports, by decide, by decide⟩

def ringMac (e : ring.End) : Vector UInt8 6 := .replicate 6 (.ofNat e.1.id)

theorem packets_refine_configs_ring : ∃ x : WireWorld ring,
    Reaches (stepWire ringMac) (fun x ev => KeepsRoles x.decode ev.decode)
      (fun x => x = WireWorld.initial ring) x ∧
    (∀ v, (x.switches v).designatedRoot = 1) ∧ x.flight.length = 2 := by
  obtain ⟨w, hw, hroot, hlength⟩ : ∃ w, Reaches step KeepsRoles
      (fun w => w = World.initial ring) w ∧ (∀ v, (w.switches v).designatedRoot = 1) ∧
        w.flight.length = 2 :=
    exists_of_exec_from _ (bothWays.take 3) _ (by decide +kernel)
  exact ⟨w.wire ringMac, (packets_refine_configs ring_sized ringMac KeepsRoles _).mpr
    ⟨w, hw, rfl⟩, hroot, by simpa [World.wire] using hlength⟩

end Instance

end NetworkLab.Stp
