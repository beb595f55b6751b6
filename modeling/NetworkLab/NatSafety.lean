import NetworkLab.NatTranslation

/-!
# When a translation call is handled

A call is handled when it returns with `nat.lock` free and has consumed the
packet exactly once. The exits of the search, of the missing SYN and of the two
allocations are handled; the common failure exit after them keeps the lock.
-/
namespace NetworkLab.Nat

/-- The action takes the packet buffer: `ip_send_packet` owns it, `free` ends it. -/
def Action.consumes : Action → Bool
  | .ipSendPacket _ => true
  | .icmpSendPacket _ _ _ => false
  | .free => true

/-- The call returned, released the lock and consumed the packet once. -/
def Handled : Outcome → Prop
  | .returned nat actions => nat.lock = false ∧ actions.countP Action.consumes = 1
  | .nullDereference => False
  | .blocked => False

/-- A route covers the address and the one that is chosen has an interface. -/
def Routed (lib : IpStack) (rtable : Routes) (addr : UInt32) : Prop :=
  (∃ entry ∈ rtable, entry.Matches addr) ∧
    ∀ entry, lib.longestPrefixMatch rtable addr = some entry → entry.iface.isSome

/-- No mapping fits the packet, it opens a connection, and there is no port or
rule left for it. -/
def DeadEnd (nat : NatTable) (packet : Packet) (dir : PacketDir) : Prop :=
  (∀ entry ∈ nat.natMappingList (remote2hash (remote dir packet).1 (remote dir packet).2),
      fits dir packet entry = false) ∧
    packet.tcp.flags &&& tcpSyn ≠ 0 ∧
    if dir = .dirOut then freePort nat = none else findRule nat packet = none

/-- What a call relies on: routes and interfaces for both addresses, the two
configured interfaces, the lock free, and for a TCP packet with a valid
direction that translation does not reach the dead end. -/
def Serviceable (lib : IpStack) (rtable : Routes) (nat : NatTable) (packet : Packet) : Prop :=
  Routed lib rtable packet.ip.daddr ∧ Routed lib rtable packet.ip.saddr ∧
    nat.internalIface.isSome ∧ nat.externalIface.isSome ∧ nat.lock = false ∧
    ∀ dir, getPacketDirection lib rtable nat packet = some dir → dir ≠ .dirInvalid →
      packet.ip.protocol = ipprotoTcp → ¬ DeadEnd nat packet dir

theorem outIp_isSome_iff (lib : IpStack) (rtable : Routes) (addr : UInt32) :
    (outIp lib rtable addr).isSome ↔ Routed lib rtable addr := by
  unfold outIp Routed
  cases h : lib.longestPrefixMatch rtable addr with
  | none =>
    have hnone := (lib.eq_none_iff rtable addr).mp h
    simp only [Option.bind_eq_bind, Option.bind_none, Option.isSome_none, Bool.false_eq_true,
      false_iff, not_and]
    rintro ⟨entry, hmem, hm⟩
    exact absurd hm (hnone entry hmem)
  | some entry =>
    have hex : ∃ entry ∈ rtable, entry.Matches addr := by
      by_contra hno
      have hnone := (lib.eq_none_iff rtable addr).mpr (fun e he hm => hno ⟨e, he, hm⟩)
      rw [h] at hnone
      cases hnone
    cases hi : entry.iface <;> simp [hex, hi]

/-- The direction is found exactly when nothing on the way is missing. -/
theorem getPacketDirection_isSome_iff (lib : IpStack) (rtable : Routes) (nat : NatTable)
    (packet : Packet) :
    (getPacketDirection lib rtable nat packet).isSome ↔
      Routed lib rtable packet.ip.daddr ∧ Routed lib rtable packet.ip.saddr ∧
        nat.internalIface.isSome ∧ nat.externalIface.isSome := by
  rw [← outIp_isSome_iff, ← outIp_isSome_iff]
  unfold getPacketDirection
  cases outIp lib rtable packet.ip.daddr with
  | none => simp
  | some dOut =>
    cases outIp lib rtable packet.ip.saddr with
    | none => simp
    | some sOut =>
      cases nat.internalIface with
      | none => simp
      | some internal =>
        cases nat.externalIface with
        | none => simp
        | some external =>
          simp only [Option.bind_eq_bind, Option.bind_some, Option.isSome_some, and_self, iff_true]
          split_ifs <;> rfl

/-- With the external interface present, a translation is handled unless it
reaches the dead end. -/
theorem handled_translate_iff {nat : NatTable} (hext : nat.externalIface.isSome)
    (packet : Packet) (dir : PacketDir) (now : ℤ) (heap : NatConnection) :
    Handled (translate nat packet dir now heap) ↔ ¬ DeadEnd nat packet dir := by
  obtain ⟨external, hexternal⟩ := Option.isSome_iff_exists.mp hext
  unfold translate DeadEnd
  simp only
  split
  next entry hfind =>
    have hmem := List.mem_of_find?_eq_some hfind
    have hfits := List.find?_some hfind
    refine iff_of_true ⟨rfl, rfl⟩ (fun hdead => ?_)
    have hno := hdead.1 entry hmem
    rw [hfits] at hno
    cases hno
  next hfind =>
    have hno : ∀ entry ∈ nat.natMappingList (remote2hash (remote dir packet).1
        (remote dir packet).2), fits dir packet entry = false := by
      simpa using List.find?_eq_none.mp hfind
    by_cases hsyn : packet.tcp.flags &&& tcpSyn = 0
    · rw [if_pos hsyn]
      exact iff_of_true ⟨rfl, rfl⟩ (fun hdead => hdead.2.1 hsyn)
    · rw [if_neg hsyn]
      by_cases hdir : dir = .dirOut
      · simp only [if_pos hdir]
        have hfree : freePort { nat with lock := true } = freePort nat := rfl
        rw [hfree]
        cases hp : freePort nat with
        | none => exact iff_of_false (fun h => by cases h.1) (fun h => h ⟨hno, hsyn, rfl⟩)
        | some pid =>
          simp only [hexternal]
          exact iff_of_true ⟨rfl, rfl⟩ (fun hdead => by cases hdead.2.2)
      · simp only [if_neg hdir]
        have hrule : findRule { nat with lock := true } packet = findRule nat packet := rfl
        rw [hrule]
        cases hr : findRule nat packet with
        | none => exact iff_of_false (fun h => by cases h.1) (fun h => h ⟨hno, hsyn, rfl⟩)
        | some rule => exact iff_of_true ⟨rfl, rfl⟩ (fun hdead => by cases hdead.2.2)

/-- A call is handled exactly when it is serviceable. -/
theorem natTranslatePacket_handled_iff (lib : IpStack) (rtable : Routes) (nat : NatTable)
    (packet : Packet) (now : ℤ) (heap : NatConnection) :
    Handled (natTranslatePacket lib rtable nat packet now heap) ↔
      Serviceable lib rtable nat packet := by
  have hdir := getPacketDirection_isSome_iff lib rtable nat packet
  unfold natTranslatePacket Serviceable
  cases hd : getPacketDirection lib rtable nat packet with
  | none =>
    rw [hd] at hdir
    have hmissing : ¬ (Routed lib rtable packet.ip.daddr ∧ Routed lib rtable packet.ip.saddr ∧
        nat.internalIface.isSome ∧ nat.externalIface.isSome) := by simpa using hdir
    refine iff_of_false (fun h => h) ?_
    rintro ⟨hda, hsa, hint, hext, -⟩
    exact hmissing ⟨hda, hsa, hint, hext⟩
  | some dir =>
    rw [hd] at hdir
    obtain ⟨hda, hsa, hint, hext⟩ := hdir.mp rfl
    simp only [hda, hsa, hint, hext, true_and, Option.some.injEq, forall_eq']
    by_cases hinv : dir = .dirInvalid
    · simp [hinv, Handled, unreachable, Action.consumes]
    · simp only [if_neg hinv]
      by_cases htcp : packet.ip.protocol = ipprotoTcp
      · rw [if_neg (by simpa using htcp), doTranslation]
        by_cases hlock : nat.lock = true
        · simp [hlock, Handled]
        · rw [if_neg hlock, handled_translate_iff hext]
          simp [hlock, hinv, htcp]
      · simp [htcp, Handled, Action.consumes]

section Instance

/-- The IP library with the scan of the later projects. -/
def linearStack : IpStack := ⟨longestPrefixMatch, longestPrefixMatch_eq_none⟩

def inside : Iface := ⟨0x0a1500fe⟩
def outside : Iface := ⟨0x9fe2272b⟩

def labRoutes : Routes :=
  [⟨0x0a150000, 0xffff0000, 0, some inside⟩, ⟨0x9fe22700, 0xffffff00, 0, some outside⟩]

def labTable : NatTable := natInit (some inside) (some outside) []

def noConnection : NatConnection := ⟨0, 0, 0, 0, 0, 0⟩

/-- A SYN without payload between two endpoints. -/
def syn (saddr : UInt32) (sport : UInt16) (daddr : UInt32) (dport : UInt16) : Packet where
  ether := List.replicate 14 0
  ip := ⟨4, 5, 0, 40, 0, 0x4000, 64, ipprotoTcp, 0, saddr, daddr⟩
  options := []
  tcp := ⟨sport, dport, 0, 0, 5, tcpSyn, 65535, 0, 0⟩
  data := []

theorem natTranslatePacket_handled_lab :
    Handled (natTranslatePacket linearStack labRoutes labTable
      (syn 0x0a150001 5000 0x9fe2277b 80) 0 noConnection) := by
  refine (natTranslatePacket_handled_iff _ _ _ _ _ _).mpr ?_
  have hdir : getPacketDirection linearStack labRoutes labTable
      (syn 0x0a150001 5000 0x9fe2277b 80) = some .dirOut := by decide
  obtain ⟨hd, hs, hi, he⟩ := (getPacketDirection_isSome_iff _ _ _ _).mp (by rw [hdir]; rfl)
  refine ⟨hd, hs, hi, he, rfl, fun dir h _ _ hdead => ?_⟩
  rw [hdir, Option.some.injEq] at h
  subst h
  exact absurd hdead.2.2 (by decide)

/-- A SYN from outside to a port without a rule returns with the lock held. -/
theorem natTranslatePacket_leaks_lock :
    labTable.lock = false ∧
      ¬ Handled (natTranslatePacket linearStack labRoutes labTable
        (syn 0x9fe2277b 4000 0x9fe2272b 9999) 0 noConnection) := by
  refine ⟨rfl, fun h => ?_⟩
  have hcall : natTranslatePacket linearStack labRoutes labTable
      (syn 0x9fe2277b 4000 0x9fe2272b 9999) 0 noConnection =
      .returned { labTable with lock := true }
        (unreachable (syn 0x9fe2277b 4000 0x9fe2272b 9999)) := rfl
  rw [hcall] at h
  cases h.1

end Instance

end NetworkLab.Nat
