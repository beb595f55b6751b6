import NetworkLab.ByteOrder
import NetworkLab.Stp

/-!
# Spanning tree protocol: which frames reach the switch

`handle_packet` is to drop every frame that is not addressed to the STP group. It
compares `sizeof(*eth_stp_addr)` bytes of the destination, which is one byte, so
other multicast frames reach the ports as well. The number `n` of ports is at most
32 in the source (`STP_MAX_PORTS`).
-/
namespace NetworkLab.Stp

section Model

variable {n : ℕ}

/-- A received frame: the port it came in on and the memory from its first byte on,
where there is no check that a load stays inside of the frame. -/
structure Frame (n : ℕ) where
  port : Fin n
  packet : ℕ → UInt8

/-- `eth_stp_addr`. -/
def ethStpAddr : List UInt8 := [0x01, 0x80, 0xC2, 0x00, 0x00, 0x01]

def etherHdrSize : ℕ := 14
def llcHdrSize : ℕ := 3

/-- `STP_TYPE_CONFIG`. -/
def stpTypeConfig : UInt8 := 0x00

/-- `memcmp` finds a difference in the first bytes. -/
def memcmp (buf : ℕ → UInt8) (bytes : List UInt8) (size : ℕ) : Bool :=
  (List.range size).any fun i => buf i != bytes.getD i 0

/-- The field `msg_type` of the STP header. -/
def msgType (packet : ℕ → UInt8) : UInt8 := packet (etherHdrSize + llcHdrSize + 3)

/-- The fields of `struct stp_config` in host order; `designated_cost` is an `int`. -/
def stpConfig (packet : ℕ → UInt8) : StpConfig :=
  let config := etherHdrSize + llcHdrSize
  { rootId := (ntohll (word64 packet (config + 5))).toNat
    rootPathCost := (ntohl (word32 packet (config + 13))).toInt32.toInt
    switchId := (ntohll (word64 packet (config + 17))).toNat
    portId := (ntohs (word16 packet (config + 25))).toNat }

/-- `stp_port_handle_packet`; other messages are logged only. -/
def stpPortHandlePacket (stp : Switch n) (f : Frame n) : Switch n × List (Fin n × StpConfig) :=
  if msgType f.packet = stpTypeConfig then handleConfig stp f.port (stpConfig f.packet)
  else (stp, [])

/-- `sizeof(*eth_stp_addr)`: the size of one element. -/
def sizeofStpAddr : ℕ := 1

/-- `handle_packet` of `prj06`. -/
def handlePacket (stp : Switch n) (f : Frame n) : Switch n × List (Fin n × StpConfig) :=
  if memcmp f.packet ethStpAddr sizeofStpAddr then (stp, []) else stpPortHandlePacket stp f

/-- The state after a sequence of frames, and all configs sent. -/
def handlePackets (stp : Switch n) : List (Frame n) → Switch n × List (Fin n × StpConfig)
  | [] => (stp, [])
  | f :: fs =>
    let handled := handlePacket stp f
    let rest := handlePackets handled.1 fs
    (rest.1, handled.2 ++ rest.2)

/-- The frame is addressed to the STP group. -/
def toGroup (f : Frame n) : Bool := !memcmp f.packet ethStpAddr 6

end Model

variable {n : ℕ}

/-- Frames of a population that agree on those to the group cannot be told apart. -/
def NonInterfering (stp : Switch n) (K : Frame n → Prop) : Prop :=
  ∀ xs ys : List (Frame n), (∀ f ∈ xs, K f) → (∀ f ∈ ys, K f) →
    xs.filter toGroup = ys.filter toGroup → handlePackets stp xs = handlePackets stp ys

/-- No frame to another address starts like the group address and looks like a config. -/
def NoImpostor (K : Frame n → Prop) : Prop :=
  ∀ f, K f → f.packet 0 = 0x01 → msgType f.packet = stpTypeConfig → toGroup f = true

/-- Only frames that start with the first byte of the group address and have the
type of a config do anything. -/
theorem handlePacket_eq (stp : Switch n) (f : Frame n) :
    handlePacket stp f =
      if f.packet 0 = 0x01 ∧ msgType f.packet = stpTypeConfig then
        handleConfig stp f.port (stpConfig f.packet)
      else (stp, []) := by
  by_cases hfirst : f.packet 0 = 0x01
  · simp [handlePacket, memcmp, sizeofStpAddr, ethStpAddr, stpPortHandlePacket, hfirst]
  · simp [handlePacket, memcmp, sizeofStpAddr, ethStpAddr, hfirst]

/-- The frames to the group alone have the same effect. -/
theorem handlePackets_filter {K : Frame n → Prop} (hK : NoImpostor K) (stp : Switch n)
    {xs : List (Frame n)} (hxs : ∀ f ∈ xs, K f) :
    handlePackets stp xs = handlePackets stp (xs.filter toGroup) := by
  induction xs generalizing stp with
  | nil => rfl
  | cons f fs ih =>
    have hrest := fun stp => ih stp fun g hg => hxs g (List.mem_cons_of_mem _ hg)
    cases hf : toGroup f with
    | true => simp only [List.filter_cons_of_pos hf, handlePackets, hrest]
    | false =>
      have hignored : handlePacket stp f = (stp, []) := by
        rw [handlePacket_eq, if_neg]
        rintro ⟨hfirst, htype⟩
        simp [hK f (hxs f List.mem_cons_self) hfirst htype] at hf
      simp [handlePackets, hignored, hf, hrest]

/-- A new switch never takes a config without a trace: it answers, or stores it. -/
theorem handleConfig_visible (n switchId : ℕ) (p : Fin n) (config : StpConfig) :
    handleConfig (stpInit n switchId) p config ≠ (stpInit n switchId, []) := by
  have hall : ∀ i, (stpInit n switchId).Designated i :=
    fun i => (designated_iff _ i).mpr ⟨rfl, rfl⟩
  have hsend : ∀ stp : Switch n, stp.Designated p → stp.isRootSwitch = true →
      sendConfig stp ≠ [] := by
    intro stp hp hroot hnil
    have hmem : (p, stp.config p) ∈ sendConfig stp := by
      refine List.mem_flatMap.mpr ⟨p, List.mem_finRange p, ?_⟩
      rw [show stp.portIsDesignated (stp.ports p) = true from hp]
      simp [portSendConfig, hroot]
    simp [hnil] at hmem
  intro hsame
  by_cases hle : config.vector.Le ((stpInit n switchId).ports p).vector
  · have hcmp : portCmp ((stpInit n switchId).ports p)
        (configToPort config ((stpInit n switchId).ports p)) = true := (portCmp_iff _ _).mpr hle
    have hsent : (handleConfig (stpInit n switchId) p config).2 =
        sendConfig (handleConfig (stpInit n switchId) p config).1 := by
      simp [handleConfig, hcmp]
    rw [hsame] at hsent
    exact hsend _ (hall p) (by simp [Switch.isRootSwitch, stpInit]) hsent.symm
  · rw [handleConfig_reject hle] at hsame
    simp [portSendConfig, Switch.isRootSwitch, stpInit] at hsame

/-- A population of frames is told apart by its group frames alone exactly when it has
no impostor; then this holds in every state of the switch. -/
theorem nonInterfering_iff (n switchId : ℕ) (K : Frame n → Prop) :
    (NonInterfering (stpInit n switchId) K ↔ NoImpostor K) ∧
      (NoImpostor K → ∀ stp : Switch n, NonInterfering stp K) := by
  have hall : NoImpostor K → ∀ stp : Switch n, NonInterfering stp K := by
    intro hK stp xs ys hxs hys hsame
    rw [handlePackets_filter hK stp hxs, handlePackets_filter hK stp hys, hsame]
  refine ⟨⟨fun hni f hf hfirst htype => ?_, fun hK => hall hK _⟩, hall⟩
  by_contra hout
  have hsame := hni [f] [] (by simpa using hf) (by simp) (by simp [hout])
  have hhandle : handlePacket (stpInit n switchId) f = (stpInit n switchId, []) := by
    simpa [handlePackets, Prod.ext_iff] using hsame
  rw [handlePacket_eq, if_pos ⟨hfirst, htype⟩] at hhandle
  exact handleConfig_visible n switchId f.port (stpConfig f.packet) hhandle

/-- An OSPF hello to `224.0.0.5`. -/
def ospfHello : Frame 2 where
  port := 0
  packet i := [0x01, 0x00, 0x5E, 0x00, 0x00, 0x05, 0x00, 0x0C, 0x29, 0x3A, 0x5B, 0x01, 0x08, 0x00,
    0x45, 0xC0, 0x00, 0x40, 0x00, 0x01, 0x00, 0x00, 0x01, 0x59, 0xD8, 0xB2, 0x0A, 0x00, 0x00, 0x01,
    0xE0, 0x00, 0x00, 0x05, 0x02, 0x01, 0x00, 0x2C, 0x0A, 0x00, 0x00, 0x01].getD i 0

/-- The switch takes the hello for a config from a better root and gives up its own. -/
theorem ospfHello_interferes :
    [ospfHello].filter toGroup = [].filter toGroup ∧
    (handlePackets (stpInit 2 (0x8000 * 2 ^ 48)) [ospfHello]).1.designatedRoot ≠
      (handlePackets (stpInit 2 (0x8000 * 2 ^ 48)) []).1.designatedRoot := by
  have hout : toGroup ospfHello = false := by decide +kernel
  exact ⟨by simp [hout], by decide +kernel⟩

end NetworkLab.Stp
