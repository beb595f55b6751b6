import NetworkLab.GuardedRuns
import NetworkLab.NatSafety

/-!
# End-to-end delivery through the NAT

Runs of translation calls and sweeps from the table that `nat_init` leaves. A
mapping is the promise that packets of its remote endpoint to its external
endpoint reach its internal endpoint. The promise is kept as long as no two
live mappings of one remote endpoint share an external endpoint; the port pool
does not ensure this, because no allocation ever marks its port.
-/
namespace NetworkLab.Nat
open GuardedRuns

def NatMapping.remote (m : NatMapping) : UInt32 × UInt16 := (m.remoteIp, m.remotePort)
def NatMapping.internal (m : NatMapping) : UInt32 × UInt16 := (m.internalIp, m.internalPort)
def NatMapping.external (m : NatMapping) : UInt32 × UInt16 := (m.externalIp, m.externalPort)

def Packet.source (p : Packet) : UInt32 × UInt16 := (p.ip.saddr, p.tcp.sport)
def Packet.destination (p : Packet) : UInt32 × UInt16 := (p.ip.daddr, p.tcp.dport)

/-- The bucket that holds the mappings of a remote endpoint. -/
def NatTable.chain (nat : NatTable) (remote : UInt32 × UInt16) : List NatMapping :=
  nat.natMappingList (remote2hash remote.1 remote.2)

/-- The mapping is in the table. -/
def NatTable.Live (nat : NatTable) (m : NatMapping) : Prop := ∃ b, m ∈ nat.natMappingList b

inductive Event
  | packet (p : Packet) (now : ℤ) (heap : NatConnection)
  | timeout (now : ℤ)

section Run

variable (lib : IpStack) (rtable : Routes)

/-- A translation call that returns, or a round of the sweep. -/
def step (nat : NatTable) : Event → Option NatTable
  | .packet p now heap =>
    match natTranslatePacket lib rtable nat p now heap with
    | .returned nat' _ => some nat'
    | _ => none
  | .timeout now => natTimeout nat now

/-- The packet finds no mapping and opens one towards its destination. -/
def Opens (nat : NatTable) (p : Packet) : Prop :=
  getPacketDirection lib rtable nat p = some .dirOut ∧ p.ip.protocol = ipprotoTcp ∧
    p.tcp.flags &&& tcpSyn ≠ 0 ∧
    ∀ m ∈ nat.chain (Packet.destination p), fits .dirOut p m = false

/-- The steps on which delivery is kept: the two interfaces have different
addresses, and no mapping of the destination holds the external endpoint that
an outgoing connection is about to get. -/
def Distinguished (nat : NatTable) : Event → Prop
  | .packet p _ _ =>
    (∀ internal external, nat.internalIface = some internal → nat.externalIface = some external →
      internal.ip ≠ external.ip) ∧
    (Opens lib rtable nat p →
      ∀ external pid, nat.externalIface = some external → freePort nat = some pid →
        ∀ m ∈ nat.chain (Packet.destination p), m.remote = Packet.destination p →
          m.external ≠ (external.ip, pid))
  | .timeout _ => True

/-- Everything a returning call can do: drop the packet, translate it by a
mapping of the table, or translate it by a mapping that it adds. -/
inductive Translated (nat : NatTable) (p : Packet) (now : ℤ) (heap : NatConnection) :
    NatTable → List Action → Prop
  | dropped {nat' : NatTable} {actions : List Action}
      (hlist : nat'.natMappingList = nat.natMappingList)
      (hinternal : nat'.internalIface = nat.internalIface)
      (hexternal : nat'.externalIface = nat.externalIface)
      (hactions : ∀ p', actions ≠ [.ipSendPacket p']) :
      Translated nat p now heap nat' actions
  | known {dir : PacketDir} {entry : NatMapping}
      (hdir : getPacketDirection lib rtable nat p = some dir) (hvalid : dir ≠ .dirInvalid)
      (hfind : (nat.chain (remote dir p)).find? (fits dir p) = some entry) :
      Translated nat p now heap
        { nat with
          natMappingList := fun b =>
            if b = remote2hash (remote dir p).1 (remote dir p).2 then
              updateFirst (fits dir p) (updateMapping dir p now) (nat.natMappingList b)
            else nat.natMappingList b
          lock := false }
        [.ipSendPacket (rewrite dir p entry)]
  | outbound {external : Iface} {pid : UInt16} (hopens : Opens lib rtable nat p)
      (hexternal : nat.externalIface = some external) (hpid : freePort nat = some pid) :
      Translated nat p now heap
        { nat.addMapping (remote2hash p.ip.daddr p.tcp.dport)
            (outboundMapping p external.ip pid now heap) with lock := false }
        [.ipSendPacket (rewriteSource p external.ip pid)]
  | inbound {rule : DnatRule} (hdir : getPacketDirection lib rtable nat p = some .dirIn)
      (hrule : findRule nat p = some rule)
      (hnew : ∀ m ∈ nat.chain (Packet.source p), fits .dirIn p m = false) :
      Translated nat p now heap
        { nat.addMapping (remote2hash p.ip.saddr p.tcp.sport) (dnatMapping p rule now heap) with
          lock := false }
        [.ipSendPacket (rewriteDestination p rule.internalIp rule.internalPort)]

theorem unreachable_ne_send (p p' : Packet) : unreachable p ≠ [.ipSendPacket p'] := by
  simp [unreachable]

/-- The exits of a call, one for each way it can return. -/
theorem natTranslatePacket_cases {nat nat' : NatTable} {p : Packet} {now : ℤ}
    {heap : NatConnection} {actions : List Action}
    (h : natTranslatePacket lib rtable nat p now heap = .returned nat' actions) :
    Translated lib rtable nat p now heap nat' actions := by
  unfold natTranslatePacket at h
  cases hdir : getPacketDirection lib rtable nat p with
  | none => simp [hdir] at h
  | some dir =>
    simp only [hdir] at h
    by_cases hinv : dir = .dirInvalid
    · rw [if_pos hinv, Outcome.returned.injEq] at h
      obtain ⟨rfl, rfl⟩ := h
      exact .dropped rfl rfl rfl (unreachable_ne_send p)
    rw [if_neg hinv] at h
    by_cases htcp : p.ip.protocol = ipprotoTcp
    · rw [if_neg (by simpa using htcp), doTranslation] at h
      by_cases hlock : nat.lock = true
      · simp [hlock] at h
      rw [if_neg hlock] at h
      unfold translate at h
      simp only at h
      split at h
      next entry hfind =>
        rw [Outcome.returned.injEq] at h
        obtain ⟨rfl, rfl⟩ := h
        exact .known hdir hinv hfind
      next hfind =>
        have hnew : ∀ m ∈ nat.chain (remote dir p), fits dir p m = false := fun m hm => by
          simpa using List.find?_eq_none.mp hfind m hm
        by_cases hsyn : p.tcp.flags &&& tcpSyn = 0
        · rw [if_pos hsyn, Outcome.returned.injEq] at h
          obtain ⟨rfl, rfl⟩ := h
          exact .dropped rfl rfl rfl (unreachable_ne_send p)
        rw [if_neg hsyn] at h
        by_cases hout : dir = .dirOut
        · subst hout
          simp only [if_true] at h
          split at h
          next pid hpid =>
            split at h
            next external hext =>
              rw [Outcome.returned.injEq] at h
              obtain ⟨rfl, rfl⟩ := h
              exact .outbound ⟨hdir, htcp, hsyn, hnew⟩ hext hpid
            next => cases h
          next =>
            rw [Outcome.returned.injEq] at h
            obtain ⟨rfl, rfl⟩ := h
            exact .dropped rfl rfl rfl (unreachable_ne_send p)
        · have hin : dir = .dirIn := by cases dir <;> first | rfl | contradiction
          subst hin
          rw [if_neg hout] at h
          split at h
          next rule hrule =>
            rw [Outcome.returned.injEq] at h
            obtain ⟨rfl, rfl⟩ := h
            exact .inbound hdir hrule hnew
          next =>
            rw [Outcome.returned.injEq] at h
            obtain ⟨rfl, rfl⟩ := h
            exact .dropped rfl rfl rfl (unreachable_ne_send p)
    · rw [if_pos htcp, Outcome.returned.injEq] at h
      obtain ⟨rfl, rfl⟩ := h
      exact .dropped rfl rfl rfl (by simp)

/-- The state of a table whose promises do not conflict: mappings lie in the
bucket of their remote endpoint, they use the address of the external interface
and a remote endpoint behind it, and two mappings of one remote endpoint with
the same external endpoint lead to the same internal endpoint. -/
structure Consistent (nat : NatTable) : Prop where
  placed : ∀ b, ∀ m ∈ nat.natMappingList b, remote2hash m.remoteIp m.remotePort = b
  ours : ∀ m, nat.Live m → ∃ external, nat.externalIface = some external ∧
    m.externalIp = external.ip ∧ outIp lib rtable m.remoteIp = some external.ip
  distinct : ∀ m m', nat.Live m → nat.Live m' → m.remote = m'.remote →
    m.external = m'.external → m.internal = m'.internal

theorem Consistent.mem_chain {nat : NatTable} (hc : Consistent lib rtable nat) {m : NatMapping}
    (hm : nat.Live m) : m ∈ nat.chain m.remote := by
  obtain ⟨b, hb⟩ := hm
  have hplace := hc.placed b m hb
  simpa only [NatTable.chain, NatMapping.remote, hplace] using hb

/-- A table that holds, up to times and statistics, only mappings of a
consistent table is consistent. -/
theorem Consistent.of_subset {nat nat' : NatTable} (hc : Consistent lib rtable nat)
    (hext : nat'.externalIface = nat.externalIface)
    (hsub : ∀ b, ∀ m' ∈ nat'.natMappingList b, ∃ m ∈ nat.natMappingList b,
      m'.remote = m.remote ∧ m'.internal = m.internal ∧ m'.external = m.external) :
    Consistent lib rtable nat' := by
  refine ⟨fun b m' hm' => ?_, fun m' hm' => ?_, fun m m' hm hm' hr he => ?_⟩
  · obtain ⟨m, hm, hr, -, -⟩ := hsub b m' hm'
    obtain ⟨hip, hport⟩ := Prod.mk.inj hr
    rw [hip, hport]
    exact hc.placed b m hm
  · obtain ⟨b, hb⟩ := hm'
    obtain ⟨m, hm, hr, -, he⟩ := hsub b m' hb
    obtain ⟨external, hx, hip, hout⟩ := hc.ours m ⟨b, hm⟩
    refine ⟨external, hext.trans hx, ?_, ?_⟩
    · rw [(Prod.mk.inj he).1, hip]
    · rw [(Prod.mk.inj hr).1, hout]
  · obtain ⟨b, hb⟩ := hm
    obtain ⟨b', hb'⟩ := hm'
    obtain ⟨n, hn, hnr, hni, hne⟩ := hsub b m hb
    obtain ⟨n', hn', hnr', hni', hne'⟩ := hsub b' m' hb'
    rw [hni, hni']
    exact hc.distinct n n' ⟨b, hn⟩ ⟨b', hn'⟩ (by rw [← hnr, ← hnr', hr])
      (by rw [← hne, ← hne', he])

/-- Adding a mapping to the bucket of its remote endpoint keeps the table
consistent when its external endpoint is new for that remote endpoint. -/
theorem Consistent.add {nat : NatTable} (hc : Consistent lib rtable nat) (entry : NatMapping)
    {external : Iface} (hx : nat.externalIface = some external)
    (hip : entry.externalIp = external.ip)
    (hout : outIp lib rtable entry.remoteIp = some external.ip)
    (hnew : ∀ m ∈ nat.chain entry.remote, m.remote = entry.remote → m.external ≠ entry.external) :
    Consistent lib rtable
      { nat.addMapping (remote2hash entry.remoteIp entry.remotePort) entry with
        lock := false } := by
  have hlive : ∀ b m, m ∈ (nat.addMapping (remote2hash entry.remoteIp entry.remotePort)
      entry).natMappingList b → m ∈ nat.natMappingList b ∨
        (m = entry ∧ b = remote2hash entry.remoteIp entry.remotePort) := by
    intro b m hm
    by_cases hb : b = remote2hash entry.remoteIp entry.remotePort
    · simp only [NatTable.addMapping, if_pos hb, List.mem_append, List.mem_singleton] at hm
      exact hm.imp_right (fun h => ⟨h, hb⟩)
    · simp only [NatTable.addMapping, if_neg hb] at hm
      exact .inl hm
  have hfresh : ∀ m, nat.Live m → m.remote = entry.remote → m.external ≠ entry.external :=
    fun m hm hr => hnew m (hr ▸ hc.mem_chain lib rtable hm) hr
  refine ⟨fun b m hm => ?_, fun m hm => ?_, fun m m' hm hm' hr he => ?_⟩
  · rcases hlive b m hm with hm | ⟨rfl, rfl⟩
    · exact hc.placed b m hm
    · rfl
  · obtain ⟨b, hb⟩ := hm
    rcases hlive b m hb with hb | ⟨rfl, -⟩
    · exact hc.ours m ⟨b, hb⟩
    · exact ⟨external, hx, hip, hout⟩
  · obtain ⟨b, hb⟩ := hm
    obtain ⟨b', hb'⟩ := hm'
    rcases hlive b m hb with hold | ⟨rfl, -⟩ <;> rcases hlive b' m' hb' with hold' | ⟨rfl, -⟩
    · exact hc.distinct m m' ⟨b, hold⟩ ⟨b', hold'⟩ hr he
    · exact absurd he (hfresh m ⟨b, hold⟩ hr)
    · exact absurd he.symm (hfresh m' ⟨b', hold'⟩ hr.symm)
    · rfl

/-- An outgoing packet is routed to the external interface. -/
theorem outIp_of_dirOut {nat : NatTable} {p : Packet} {external : Iface}
    (hdir : getPacketDirection lib rtable nat p = some .dirOut)
    (hx : nat.externalIface = some external) :
    outIp lib rtable p.ip.daddr = some external.ip := by
  unfold getPacketDirection at hdir
  simp only [Option.bind_eq_bind, Option.bind_eq_some_iff] at hdir
  obtain ⟨dOut, hd, sOut, hs, internal, hi, external', he, hif⟩ := hdir
  rw [hx, Option.some.injEq] at he
  subst he
  split_ifs at hif with h1 h2
  · rw [hd, h1.1]
  · cases hif
  · cases hif

/-- An incoming packet is addressed to the external interface and its peer is
behind it. -/
theorem of_dirIn {nat : NatTable} {p : Packet}
    (hdir : getPacketDirection lib rtable nat p = some .dirIn) :
    ∃ external, nat.externalIface = some external ∧ p.ip.daddr = external.ip ∧
      outIp lib rtable p.ip.saddr = some external.ip := by
  unfold getPacketDirection at hdir
  simp only [Option.bind_eq_bind, Option.bind_eq_some_iff] at hdir
  obtain ⟨dOut, hd, sOut, hs, internal, hi, external, he, hif⟩ := hdir
  split_ifs at hif with h1 h2
  · cases hif
  · exact ⟨external, he, h2.2, by rw [hs, h2.1]⟩
  · cases hif

theorem updateMapping_keys (dir : PacketDir) (p : Packet) (now : ℤ) (m : NatMapping) :
    (updateMapping dir p now m).remote = m.remote ∧
      (updateMapping dir p now m).internal = m.internal ∧
      (updateMapping dir p now m).external = m.external := ⟨rfl, rfl, rfl⟩

/-- A returning call keeps the two interfaces. -/
theorem Translated.ifaces {nat nat' : NatTable} {p : Packet} {now : ℤ} {heap : NatConnection}
    {actions : List Action} (h : Translated lib rtable nat p now heap nat' actions) :
    nat'.internalIface = nat.internalIface ∧ nat'.externalIface = nat.externalIface := by
  cases h with
  | dropped _ hinternal hexternal _ => exact ⟨hinternal, hexternal⟩
  | known => exact ⟨rfl, rfl⟩
  | outbound => exact ⟨rfl, rfl⟩
  | inbound => exact ⟨rfl, rfl⟩

theorem consistent_packet {nat nat' : NatTable} {p : Packet} {now : ℤ} {heap : NatConnection}
    {actions : List Action} (hc : Consistent lib rtable nat)
    (hok : Distinguished lib rtable nat (.packet p now heap))
    (h : Translated lib rtable nat p now heap nat' actions) : Consistent lib rtable nat' := by
  cases h with
  | dropped hlist _ hext _ =>
    exact hc.of_subset lib rtable hext
      (fun b m hm => ⟨m, by rwa [hlist] at hm, rfl, rfl, rfl⟩)
  | known hdir hvalid hfind =>
    refine hc.of_subset lib rtable rfl (fun b m hm => ?_)
    simp only at hm
    split_ifs at hm with hb
    · rcases mem_updateFirst hm with hm | ⟨y, hy, -, rfl⟩
      · exact ⟨m, hm, rfl, rfl, rfl⟩
      · exact ⟨y, hy, updateMapping_keys _ p now y⟩
    · exact ⟨m, hm, rfl, rfl, rfl⟩
  | outbound hopens hx hpid =>
    exact hc.add lib rtable (outboundMapping p _ _ now heap) hx rfl
      (outIp_of_dirOut lib rtable hopens.1 hx) (hok.2 hopens _ _ hx hpid)
  | @inbound rule hdir hrule hnew =>
    obtain ⟨external, hx, hda, hsa⟩ := of_dirIn lib rtable hdir
    have hmatch : (rule.externalIp, rule.externalPort) = (p.ip.daddr, p.tcp.dport) := by
      simpa using List.find?_some hrule
    obtain ⟨hip, hport⟩ := Prod.mk.inj hmatch
    apply hc.add lib rtable (dnatMapping p rule now heap) hx (hip.trans hda) hsa
    intro m hm hr he
    -- the search for an incoming packet would have found a mapping with both endpoints
    have hno := hnew m hm
    have hfits : fits .dirIn p m = true := by
      have hr' : (m.remoteIp, m.remotePort) = (p.ip.saddr, p.tcp.sport) := hr
      have he' : (m.externalIp, m.externalPort) = (rule.externalIp, rule.externalPort) := he
      simp [fits, Nat.remote, hr', he', hmatch]
    rw [hfits] at hno
    cases hno

/-- The step of a packet is a call that returns. -/
theorem returned_of_step {nat nat' : NatTable} {p : Packet} {now : ℤ} {heap : NatConnection}
    (h : step lib rtable nat (.packet p now heap) = some nat') :
    ∃ actions, natTranslatePacket lib rtable nat p now heap = .returned nat' actions := by
  simp only [step] at h
  split at h
  next nat'' actions hret => exact ⟨actions, Option.some.inj h ▸ hret⟩
  next => cases h

theorem consistent_step {nat nat' : NatTable} {e : Event} (hc : Consistent lib rtable nat)
    (hok : Distinguished lib rtable nat e) (h : step lib rtable nat e = some nat') :
    Consistent lib rtable nat' := by
  cases e with
  | packet p now heap =>
    obtain ⟨actions, hret⟩ := returned_of_step lib rtable h
    exact consistent_packet lib rtable hc hok (natTranslatePacket_cases lib rtable hret)
  | timeout now =>
    obtain rfl := natTimeout_eq h
    exact hc.of_subset lib rtable rfl
      (fun b m hm => ⟨m, List.mem_of_mem_filter hm, rfl, rfl, rfl⟩)

theorem consistent_of_reaches {internal external : Option Iface} {rules : List DnatRule}
    {nat : NatTable} (h : Reaches (step lib rtable) (Distinguished lib rtable)
      (fun t => t = natInit internal external rules) nat) : Consistent lib rtable nat := by
  refine h.invariant (Consistent lib rtable) ?_ (fun _ _ _ => consistent_step lib rtable)
  rintro _ rfl
  refine ⟨fun b m hm => ?_, fun m hm => ?_, fun m _ hm _ _ _ => ?_⟩
  · cases hm
  · obtain ⟨b, hb⟩ := hm
    cases hb
  · obtain ⟨b, hb⟩ := hm
    cases hb

/-- An outgoing packet comes from behind the internal interface. -/
theorem outIp_source_of_dirOut {nat : NatTable} {p : Packet}
    (hdir : getPacketDirection lib rtable nat p = some .dirOut) :
    ∃ internal, nat.internalIface = some internal ∧
      outIp lib rtable p.ip.saddr = some internal.ip := by
  unfold getPacketDirection at hdir
  simp only [Option.bind_eq_bind, Option.bind_eq_some_iff] at hdir
  obtain ⟨dOut, hd, sOut, hs, internal, hi, external, he, hif⟩ := hdir
  split_ifs at hif with h1 h2
  · exact ⟨internal, hi, by rw [hs, h1.2]⟩
  · cases hif
  · cases hif

/-- The configured interfaces have different addresses. -/
def Separate (nat : NatTable) : Prop :=
  ∀ internal external, nat.internalIface = some internal → nat.externalIface = some external →
    internal.ip ≠ external.ip

theorem step_ifaces {nat nat' : NatTable} {e : Event} (h : step lib rtable nat e = some nat') :
    nat'.internalIface = nat.internalIface ∧ nat'.externalIface = nat.externalIface := by
  cases e with
  | packet p now heap =>
    obtain ⟨actions, hret⟩ := returned_of_step lib rtable h
    exact (natTranslatePacket_cases lib rtable hret).ifaces lib rtable
  | timeout now =>
    obtain rfl := natTimeout_eq h
    exact ⟨rfl, rfl⟩

/-- A packet to the external endpoint of a live mapping, from its remote
endpoint, reaches the internal endpoint of the mapping. -/
theorem inbound_delivered {nat nat' : NatTable} (hc : Consistent lib rtable nat)
    (hsep : Separate nat) {m : NatMapping} (hm : nat.Live m) {r r' : Packet} {now : ℤ}
    {heap : NatConnection} (hsrc : Packet.source r = m.remote)
    (hdst : Packet.destination r = m.external)
    (h : natTranslatePacket lib rtable nat r now heap = .returned nat' [.ipSendPacket r']) :
    Packet.destination r' = m.internal := by
  obtain ⟨external, hx, -, hout⟩ := hc.ours m hm
  have hnotOut : getPacketDirection lib rtable nat r ≠ some .dirOut := by
    intro hdir
    obtain ⟨internal, hi, hs⟩ := outIp_source_of_dirOut lib rtable hdir
    have hsaddr : r.ip.saddr = m.remoteIp := (Prod.mk.inj hsrc).1
    rw [hsaddr, hout, Option.some.injEq] at hs
    exact hsep internal external hi hx hs.symm
  have hchain : m ∈ nat.chain (Packet.source r) := hsrc ▸ hc.mem_chain lib rtable hm
  generalize hacts : [Action.ipSendPacket r'] = actions at h
  cases natTranslatePacket_cases lib rtable h with
  | dropped _ _ _ hno => exact absurd hacts.symm (hno r')
  | @known dir entry hdir hvalid hfind =>
    have hin : dir = .dirIn := by
      cases dir with
      | dirIn => rfl
      | dirOut => exact absurd hdir hnotOut
      | dirInvalid => exact absurd rfl hvalid
    subst hin
    have hfits := List.find?_some hfind
    simp only [fits, Bool.and_eq_true, decide_eq_true_eq, if_true] at hfits
    have hlive : nat.Live entry := ⟨_, List.mem_of_find?_eq_some hfind⟩
    have hsame := hc.distinct entry m hlive hm (hfits.1.trans hsrc) (hfits.2.trans hdst)
    simp only [List.cons.injEq, Action.ipSendPacket.injEq, and_true] at hacts
    rw [hacts, ← hsame]
    rfl
  | outbound hopens => exact absurd hopens.1 hnotOut
  | inbound hdir hrule hnew =>
    have hno := hnew m hchain
    have hremote : (m.remoteIp, m.remotePort) = (r.ip.saddr, r.tcp.sport) := hsrc.symm
    have hexternal : (m.externalIp, m.externalPort) = (r.ip.daddr, r.tcp.dport) := hdst.symm
    simp [fits, Nat.remote, hremote, hexternal] at hno

/-- A packet of another internal endpoint to the remote endpoint of a live
mapping leaves with another external endpoint than that of the mapping. -/
theorem outbound_distinct {nat nat' : NatTable} (hc : Consistent lib rtable nat)
    {m : NatMapping} (hm : nat.Live m) {s s' : Packet} {now : ℤ} {heap : NatConnection}
    (hok : Distinguished lib rtable nat (.packet s now heap))
    (hdir : getPacketDirection lib rtable nat s = some .dirOut)
    (hdst : Packet.destination s = m.remote) (hsrc : Packet.source s ≠ m.internal)
    (h : natTranslatePacket lib rtable nat s now heap = .returned nat' [.ipSendPacket s']) :
    Packet.source s' ≠ m.external := by
  have hchain : m ∈ nat.chain (Packet.destination s) := hdst ▸ hc.mem_chain lib rtable hm
  generalize hacts : [Action.ipSendPacket s'] = actions at h
  cases natTranslatePacket_cases lib rtable h with
  | dropped _ _ _ hno => exact absurd hacts.symm (hno s')
  | @known dir entry hdir' hvalid hfind =>
    rw [hdir, Option.some.injEq] at hdir'
    subst hdir'
    have hfits := List.find?_some hfind
    simp only [fits, Bool.and_eq_true, decide_eq_true_eq, reduceCtorEq, if_false] at hfits
    have hlive : nat.Live entry := ⟨_, List.mem_of_find?_eq_some hfind⟩
    have hinternal : entry.internal = Packet.source s := hfits.2
    simp only [List.cons.injEq, Action.ipSendPacket.injEq, and_true] at hacts
    rw [hacts]
    intro he
    exact hsrc (hinternal.symm.trans (hc.distinct entry m hlive hm (hfits.1.trans hdst) he))
  | @outbound external pid hopens hx hpid =>
    simp only [List.cons.injEq, Action.ipSendPacket.injEq, and_true] at hacts
    rw [hacts]
    exact fun he => hok.2 hopens external pid hx hpid m hchain hdst.symm he.symm
  | inbound hdir' =>
    rw [hdir] at hdir'
    cases hdir'

/-- End-to-end delivery: once a packet of an internal endpoint has left with an
external endpoint, and as long as the mapping is in the table, replies to that
external endpoint reach the internal endpoint and no other internal endpoint
leaves with it towards the same peer. Every step of the run is distinguished. -/
theorem nat_delivery {internal external : Option Iface} {rules : List DnatRule}
    {nat nat₁ nat₂ : NatTable} {p p' : Packet} {now : ℤ} {heap : NatConnection}
    (hrun : Reaches (step lib rtable) (Distinguished lib rtable)
      (fun t => t = natInit internal external rules) nat)
    (hok : Distinguished lib rtable nat (.packet p now heap))
    (hsent : natTranslatePacket lib rtable nat p now heap = .returned nat₁ [.ipSendPacket p'])
    (hlater : Reaches (step lib rtable) (Distinguished lib rtable) (fun t => t = nat₁) nat₂)
    (hlive : ∃ m, nat₂.Live m ∧ m.remote = Packet.destination p ∧
      m.internal = Packet.source p ∧ m.external = Packet.source p') :
    (∀ (r r' : Packet) (now : ℤ) (heap : NatConnection) (nat' : NatTable),
      Packet.source r = Packet.destination p → Packet.destination r = Packet.source p' →
      natTranslatePacket lib rtable nat₂ r now heap = .returned nat' [.ipSendPacket r'] →
      Packet.destination r' = Packet.source p) ∧
    (∀ (s s' : Packet) (now : ℤ) (heap : NatConnection) (nat' : NatTable),
      Distinguished lib rtable nat₂ (.packet s now heap) →
      getPacketDirection lib rtable nat₂ s = some .dirOut →
      Packet.destination s = Packet.destination p → Packet.source s ≠ Packet.source p →
      natTranslatePacket lib rtable nat₂ s now heap = .returned nat' [.ipSendPacket s'] →
      Packet.source s' ≠ Packet.source p') := by
  have hstep : step lib rtable nat (.packet p now heap) = some nat₁ := by
    simp only [step, hsent]
  have hc : Consistent lib rtable nat₂ :=
    consistent_of_reaches lib rtable ((hrun.next hok hstep).trans hlater)
  have hifaces : nat₂.internalIface = nat.internalIface ∧
      nat₂.externalIface = nat.externalIface := by
    refine hlater.invariant (fun t => t.internalIface = nat.internalIface ∧
      t.externalIface = nat.externalIface) ?_ (fun t e t' ht _ h => ?_)
    · rintro _ rfl
      exact step_ifaces lib rtable hstep
    · obtain ⟨hi, he⟩ := step_ifaces lib rtable h
      exact ⟨hi.trans ht.1, he.trans ht.2⟩
  have hsep : Separate nat₂ := fun i e hi he =>
    hok.1 i e (hifaces.1.symm.trans hi) (hifaces.2.symm.trans he)
  obtain ⟨m, hm, hremote, hinternal, hexternal⟩ := hlive
  refine ⟨fun r r' now heap nat' hsrc hdst h => ?_,
    fun s s' now heap nat' hok hdir hdst hsrc h => ?_⟩
  · rw [← hinternal]
    exact inbound_delivered lib rtable hc hsep hm (hsrc.trans hremote.symm)
      (hdst.trans hexternal.symm) h
  · rw [← hexternal]
    exact outbound_distinct lib rtable hc hm hok hdir (hdst.trans hremote.symm)
      (hinternal ▸ hsrc) h

end Run

section Instance

/-- Two inside hosts that open a connection to the same server. -/
def firstHost : Packet := syn 0x0a150001 5000 0x9fe2277b 80
def secondHost : Packet := syn 0x0a150002 5000 0x9fe2277b 80

/-- What the first host's packet becomes, and the table afterwards. -/
def firstSent : Packet := rewriteSource firstHost outside.ip 12345
def afterFirst : NatTable :=
  { labTable.addMapping (remote2hash firstHost.ip.daddr firstHost.tcp.dport)
      (outboundMapping firstHost outside.ip 12345 0 noConnection) with lock := false }

theorem firstHost_translated :
    natTranslatePacket linearStack labRoutes labTable firstHost 0 noConnection =
      .returned afterFirst [.ipSendPacket firstSent] := rfl

theorem firstHost_live : ∃ m, afterFirst.Live m ∧ m.remote = Packet.destination firstHost ∧
    m.internal = Packet.source firstHost ∧ m.external = Packet.source firstSent :=
  ⟨outboundMapping firstHost outside.ip 12345 0 noConnection,
    ⟨remote2hash firstHost.ip.daddr firstHost.tcp.dport,
      by rw [afterFirst]; simp [NatTable.addMapping]⟩, rfl, rfl, rfl⟩

/-- The server's reply to the first host. -/
def reply : Packet := syn 0x9fe2277b 80 0x9fe2272b 12345

/-- Before it the second host has opened a connection to another server. -/
def otherHost : Packet := syn 0x0a150002 6000 0x9fe2277c 443

def afterOther : NatTable :=
  { labTable.addMapping (remote2hash otherHost.ip.daddr otherHost.tcp.dport)
      (outboundMapping otherHost outside.ip 12345 0 noConnection) with lock := false }

def afterBoth : NatTable :=
  { afterOther.addMapping (remote2hash firstHost.ip.daddr firstHost.tcp.dport)
      (outboundMapping firstHost outside.ip 12345 40 noConnection) with lock := false }

/-- The packet is distinguished where no mapping has its peer. -/
theorem distinguished_of_peer {nat : NatTable} {p : Packet} {now : ℤ} {heap : NatConnection}
    (hinternal : nat.internalIface = some inside) (hexternal : nat.externalIface = some outside)
    (hpeer : ∀ m ∈ nat.chain (Packet.destination p), m.remote ≠ Packet.destination p) :
    Distinguished linearStack labRoutes nat (.packet p now heap) := by
  refine ⟨fun i e hi he => ?_, fun _ e pid _ _ m hm hremote => absurd hremote (hpeer m hm)⟩
  obtain rfl := Option.some.inj (hinternal.symm.trans hi)
  obtain rfl := Option.some.inj (hexternal.symm.trans he)
  decide

/-- The sweep takes the mapping of the other connection, and the reply still arrives. -/
theorem nat_delivery_lab : ∃ nat₂ nat' r',
    natTimeout afterBoth 70 = some nat₂ ∧ nat₂.chain (Packet.destination otherHost) = [] ∧
      natTranslatePacket linearStack labRoutes nat₂ reply 71 noConnection =
        .returned nat' [.ipSendPacket r'] ∧
      Packet.destination r' = Packet.source firstHost := by
  have hother : Reaches (step linearStack labRoutes) (Distinguished linearStack labRoutes)
      (fun t => t = natInit (some inside) (some outside) []) afterOther :=
    .next (e := .packet otherHost 0 noConnection) (.start rfl)
      (distinguished_of_peer rfl rfl (by decide)) rfl
  have hok : Distinguished linearStack labRoutes afterOther (.packet firstHost 40 noConnection) :=
    distinguished_of_peer rfl rfl (by decide)
  have hsent : natTranslatePacket linearStack labRoutes afterOther firstHost 40 noConnection =
      .returned afterBoth [.ipSendPacket firstSent] := rfl
  obtain ⟨nat₂, hsweep⟩ : ∃ nat₂, natTimeout afterBoth 70 = some nat₂ := ⟨_, rfl⟩
  have hlater : Reaches (step linearStack labRoutes) (Distinguished linearStack labRoutes)
      (fun t => t = afterBoth) nat₂ := .next (e := .timeout 70) (.start rfl) trivial hsweep
  obtain rfl := natTimeout_eq hsweep
  have hadded : outboundMapping firstHost outside.ip 12345 40 noConnection ∈
      afterBoth.natMappingList (remote2hash firstHost.ip.daddr firstHost.tcp.dport) := by
    rw [afterBoth]
    simp [NatTable.addMapping]
  refine ⟨_, _, _, hsweep, by decide, rfl, ?_⟩
  refine (nat_delivery linearStack labRoutes hother hok hsent hlater ?_).1 reply _ 71
    noConnection _ rfl rfl rfl
  exact ⟨_, ⟨_, List.mem_filter.mpr ⟨hadded, by decide⟩⟩, rfl, rfl, rfl⟩

/-- Both hosts leave with port 12345, so a reply to the second host is
delivered to the first. -/
theorem nat_delivery_fails_for_two_hosts :
    ∃ nat₂ s' r',
      natTranslatePacket linearStack labRoutes labTable firstHost 0 noConnection =
        .returned afterFirst [.ipSendPacket firstSent] ∧
      (∃ m, afterFirst.Live m ∧ m.remote = Packet.destination firstHost ∧
        m.internal = Packet.source firstHost ∧ m.external = Packet.source firstSent) ∧
      natTranslatePacket linearStack labRoutes afterFirst secondHost 0 noConnection =
        .returned nat₂ [.ipSendPacket s'] ∧
      Packet.destination secondHost = Packet.destination firstHost ∧
      Packet.source secondHost ≠ Packet.source firstHost ∧
      Packet.source s' = Packet.source firstSent ∧
      (∃ nat₃, natTranslatePacket linearStack labRoutes nat₂ reply 0 noConnection =
        .returned nat₃ [.ipSendPacket r']) ∧
      Packet.destination r' = Packet.source firstHost := by
  refine ⟨_, _, _, firstHost_translated, firstHost_live, rfl, rfl, by decide, rfl, ⟨_, rfl⟩, rfl⟩

end Instance

end NetworkLab.Nat
