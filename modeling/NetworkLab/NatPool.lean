import NetworkLab.NatDelivery

/-!
# The port pool of the NAT

`assigned_ports` is to say which ports of the pool have been given to a live
mapping. A sweep clears the entry of every mapping that it deletes, but no
allocation ever sets one. What a mapping has got its port from is not stored in the
table; it is kept beside it here, in the order of the chains.
-/
namespace NetworkLab.Nat
open GuardedRuns

/-- Where the external port of a mapping comes from: the pool, or a DNAT rule. -/
inductive Origin
  | pool
  | rule
  deriving DecidableEq

/-- The table, and for each chain the origins of its mappings. -/
structure PortPool where
  nat : NatTable
  origins : UInt8 → List Origin

namespace PortPool

def entries (s : PortPool) (b : UInt8) : List (NatMapping × Origin) :=
  (s.nat.natMappingList b).zip (s.origins b)

/-- All live mappings with their origins. -/
def live (s : PortPool) : List (NatMapping × Origin) :=
  (List.range 256).flatMap fun b => s.entries (UInt8.ofNat b)

/-- How many live mappings were given the port by outbound allocation. -/
def given (s : PortPool) (port : UInt16) : ℕ :=
  s.live.countP fun x => decide (x.2 = .pool ∧ x.1.externalPort = port)

/-- How many live mappings use the port, whatever their origin. -/
def holders (s : PortPool) (port : UInt16) : ℕ :=
  s.live.countP fun x => decide (x.1.externalPort = port)

/-- The origin of a mapping that a packet of this direction opens. -/
def originOf (dir : Option PacketDir) : Origin := if dir = some .dirOut then .pool else .rule

section Step

variable (lib : IpStack) (rtable : Routes)

/-- A call or a sweep of the NAT. A chain that has grown has a new mapping at its end. -/
def step (s : PortPool) : Event → Option PortPool
  | .packet p now heap =>
    match natTranslatePacket lib rtable s.nat p now heap with
    | .returned nat _ =>
      some ⟨nat, fun b =>
        if (s.nat.natMappingList b).length < (nat.natMappingList b).length then
          s.origins b ++ [originOf (getPacketDirection lib rtable s.nat p)]
        else s.origins b⟩
    | _ => none
  | .timeout now => (natTimeout s.nat now).map fun nat =>
      ⟨nat, fun b => ((s.entries b).filter fun x => !expired now x.1).map Prod.snd⟩

/-- The origins do not influence the table. -/
theorem step_nat (s : PortPool) (e : Event) :
    (s.step lib rtable e).map PortPool.nat = Nat.step lib rtable s.nat e := by
  cases e with
  | packet p now heap =>
    simp only [step, Nat.step]
    cases natTranslatePacket lib rtable s.nat p now heap <;> rfl
  | timeout now => simp [step, Nat.step, Function.comp_def]

/-- The table that `nat_init` leaves. -/
def init (internal external : Option Iface) (rules : List DnatRule) : PortPool :=
  ⟨natInit internal external rules, fun _ => []⟩

/-- The pool is kept: a port is marked exactly when one live mapping was given it, and
nobody else uses it then. -/
structure Accounted (s : PortPool) : Prop where
  marked : ∀ port ∈ poolPorts, s.nat.assignedPorts port ≠ 0 ↔ s.given port = 1
  exclusive : ∀ port ∈ poolPorts, s.given port ≠ 0 → s.holders port ≤ 1

/-- A sweep frees no port that a mapping which it keeps still uses. -/
def FreesUnused (s s' : PortPool) : Event → Prop
  | .packet _ _ _ => True
  | .timeout now => ∀ port ∈ sweptPorts s.nat now, ∀ m, s'.nat.Live m → m.externalPort ≠ port

/-- The steps on which the pool is kept: no packet opens a connection from inside, and
a sweep deletes no mapping whose external port is also that of a mapping it keeps. -/
def Spares (s : PortPool) : Event → Prop
  | .packet p _ _ => ¬ Opens lib rtable s.nat p
  | .timeout now => ∀ m m', s.nat.Live m → s.nat.Live m' → expired now m = true →
      expired now m' = false → m'.externalPort ≠ m.externalPort

end Step

/-- What holds as long as no port has been given. -/
structure Untouched (s : PortPool) : Prop where
  aligned : ∀ b, (s.origins b).length = (s.nat.natMappingList b).length
  rules : ∀ b, ∀ o ∈ s.origins b, o = .rule
  unmarked : ∀ port, s.nat.assignedPorts port = 0

theorem mem_live {s : PortPool} {x : NatMapping × Origin} :
    x ∈ s.live ↔ ∃ b, x ∈ s.entries b := by
  simp only [live, List.mem_flatMap, List.mem_range]
  constructor
  · rintro ⟨b, -, hx⟩
    exact ⟨UInt8.ofNat b, hx⟩
  · rintro ⟨b, hx⟩
    exact ⟨b.toNat, b.toNat_lt, by simpa using hx⟩

/-- Without marks the pool is kept exactly when no live mapping has a port from it. -/
theorem accounted_iff {s : PortPool} (h : ∀ port, s.nat.assignedPorts port = 0) :
    s.Accounted ↔ ∀ port ∈ poolPorts, s.given port = 0 := by
  constructor
  · intro hacc port hport
    by_contra hgiven
    have hle : s.given port ≤ s.holders port := by
      refine List.countP_mono_left fun x _ hx => ?_
      simp only [decide_eq_true_eq] at hx ⊢
      exact hx.2
    have hone := hacc.exclusive port hport hgiven
    exact (hacc.marked port hport).mpr (by omega) (h port)
  · intro hzero
    refine ⟨fun port hport => ?_, fun port hport hgiven => absurd (hzero port hport) hgiven⟩
    simp [h port, hzero port hport]

theorem Untouched.accounted {s : PortPool} (h : s.Untouched) : s.Accounted := by
  refine (accounted_iff h.unmarked).mpr fun port _ => ?_
  refine List.countP_eq_zero.mpr fun x hx hpool => ?_
  obtain ⟨b, hb⟩ := mem_live.mp hx
  have hrule := h.rules b x.2 (List.of_mem_zip hb).2
  simp [hrule] at hpool

theorem untouched_init (internal external : Option Iface) (rules : List DnatRule) :
    (init internal external rules).Untouched :=
  ⟨fun _ => rfl, by simp [init], fun _ => rfl⟩

section Preserved

variable {lib : IpStack} {rtable : Routes}

/-- No call touches the marks. -/
theorem assignedPorts_eq {nat nat' : NatTable} {p : Packet} {now : ℤ} {heap : NatConnection}
    {actions : List Action}
    (h : natTranslatePacket lib rtable nat p now heap = .returned nat' actions) :
    nat'.assignedPorts = nat.assignedPorts := by
  simp only [natTranslatePacket, doTranslation, translate] at h
  repeat' split at h
  all_goals cases h
  all_goals rfl

/-- A call adds no mapping, or one mapping at the end of one chain. -/
theorem chain_lengths {nat nat' : NatTable} {p : Packet} {now : ℤ} {heap : NatConnection}
    {actions : List Action}
    (h : natTranslatePacket lib rtable nat p now heap = .returned nat' actions) :
    (∀ b, (nat'.natMappingList b).length = (nat.natMappingList b).length) ∨
      (Opens lib rtable nat p ∨ getPacketDirection lib rtable nat p = some .dirIn) ∧
      ∃ idx entry, ∀ b, nat'.natMappingList b =
        if b = idx then nat.natMappingList b ++ [entry] else nat.natMappingList b := by
  have hadd : ∀ (idx : UInt8) (entry : NatMapping) b, (nat.addMapping idx entry).natMappingList b =
      if b = idx then nat.natMappingList b ++ [entry] else nat.natMappingList b :=
    fun _ _ _ => rfl
  cases natTranslatePacket_cases lib rtable h with
  | dropped hlist =>
    left
    intro b
    rw [hlist]
  | known =>
    left
    intro b
    simp only
    split_ifs <;> simp
  | outbound hopens => exact .inr ⟨.inl hopens, _, _, hadd _ _⟩
  | inbound hdir => exact .inr ⟨.inr hdir, _, _, hadd _ _⟩

/-- Without marks there is a free port. -/
theorem exists_freePort {nat : NatTable} (h : ∀ port, nat.assignedPorts port = 0) :
    ∃ pid ∈ poolPorts, freePort nat = some pid := by
  cases hfree : freePort nat with
  | none =>
    have hmem : UInt16.ofNat natPortMin ∈ poolPorts :=
      List.mem_map_of_mem (List.mem_range'_1.mpr (by decide))
    have hmarked := List.find?_eq_none.mp hfree _ hmem
    simp [h] at hmarked
  | some pid => exact ⟨pid, List.mem_of_find?_eq_some hfree, rfl⟩

/-- A call that opens a connection from inside takes a port of the pool. -/
theorem opens_adds {nat nat' : NatTable} {p : Packet} {now : ℤ} {heap : NatConnection}
    {actions : List Action} (hopens : Opens lib rtable nat p)
    (hports : ∀ port, nat.assignedPorts port = 0)
    (h : natTranslatePacket lib rtable nat p now heap = .returned nat' actions) :
    ∃ idx entry, entry.externalPort ∈ poolPorts ∧
      nat'.natMappingList idx = nat.natMappingList idx ++ [entry] := by
  obtain ⟨hdir, htcp, hsyn, hnew⟩ := hopens
  obtain ⟨external, hext⟩ := Option.isSome_iff_exists.mp
    ((getPacketDirection_isSome_iff lib rtable nat p).mp (by simp [hdir])).2.2.2
  have hnone : (nat.natMappingList (remote2hash (remote .dirOut p).1 (remote .dirOut p).2)).find?
      (fits .dirOut p) = none := by
    refine List.find?_eq_none.mpr fun m hm => ?_
    simp [hnew m hm]
  obtain ⟨pid, hpid, hfree⟩ : ∃ pid ∈ poolPorts, freePort { nat with lock := true } = some pid :=
    exists_freePort hports
  cases hlock : nat.lock with
  | true => simp [natTranslatePacket, hdir, htcp, doTranslation, hlock] at h
  | false =>
    have htranslate : translate nat p .dirOut now heap = .returned nat' actions := by
      simpa [natTranslatePacket, hdir, htcp, doTranslation, hlock] using h
    simp only [translate, hnone, if_neg hsyn, if_true, hfree] at htranslate
    simp only [hext, Outcome.returned.injEq] at htranslate
    refine ⟨remote2hash (remote .dirOut p).1 (remote .dirOut p).2,
      outboundMapping p external.ip pid now heap, hpid, ?_⟩
    rw [← htranslate.1]
    exact if_pos rfl

theorem step_packet {s s' : PortPool} {p : Packet} {now : ℤ} {heap : NatConnection}
    (h : s.step lib rtable (.packet p now heap) = some s') :
    ∃ actions, natTranslatePacket lib rtable s.nat p now heap = .returned s'.nat actions ∧
      ∀ b, s'.origins b =
        if (s.nat.natMappingList b).length < (s'.nat.natMappingList b).length then
          s.origins b ++ [originOf (getPacketDirection lib rtable s.nat p)]
        else s.origins b := by
  simp only [step] at h
  split at h
  next nat actions hcall =>
    cases h
    exact ⟨actions, hcall, fun _ => rfl⟩
  next => cases h

/-- A packet that opens nothing from inside leaves the pool untouched. -/
theorem Untouched.packet {s s' : PortPool} (h : s.Untouched) {p : Packet} {now : ℤ}
    {heap : NatConnection} (hno : ¬ Opens lib rtable s.nat p)
    (hstep : s.step lib rtable (.packet p now heap) = some s') : s'.Untouched := by
  obtain ⟨actions, hcall, horigins⟩ := step_packet hstep
  have hunmarked : ∀ port, s'.nat.assignedPorts port = 0 := by
    rw [assignedPorts_eq hcall]
    exact h.unmarked
  rcases chain_lengths hcall with hsame | ⟨hopens | hdir, idx, entry, hlist⟩
  · have hrest : ∀ b, s'.origins b = s.origins b := by
      simp [horigins, hsame]
    exact ⟨fun b => by rw [hrest, hsame, h.aligned], fun b => by rw [hrest]; exact h.rules b,
      hunmarked⟩
  · exact absurd hopens hno
  · have hgrown : ∀ b, s'.origins b = if b = idx then s.origins b ++ [.rule] else s.origins b := by
      intro b
      rw [horigins, hlist]
      by_cases hb : b = idx <;> simp [hb, originOf, hdir]
    refine ⟨fun b => ?_, fun b o ho => ?_, hunmarked⟩
    · rw [hgrown, hlist]
      split_ifs <;> simp [h.aligned]
    · rw [hgrown] at ho
      split_ifs at ho
      · rcases List.mem_append.mp ho with ho | ho
        · exact h.rules b o ho
        · simpa using ho
      · exact h.rules b o ho

/-- A packet that opens a connection from inside gets a port that is not marked. -/
theorem Untouched.not_accounted {s s' : PortPool} (h : s.Untouched) {p : Packet} {now : ℤ}
    {heap : NatConnection} (hopens : Opens lib rtable s.nat p)
    (hstep : s.step lib rtable (.packet p now heap) = some s') : ¬ s'.Accounted := by
  obtain ⟨actions, hcall, horigins⟩ := step_packet hstep
  obtain ⟨idx, entry, hport, hlist⟩ := opens_adds hopens h.unmarked hcall
  have hunmarked : ∀ port, s'.nat.assignedPorts port = 0 := by
    rw [assignedPorts_eq hcall]
    exact h.unmarked
  have hnew : (entry, Origin.pool) ∈ s'.live := by
    refine mem_live.mpr ⟨idx, ?_⟩
    have horigin : s'.origins idx = s.origins idx ++ [.pool] := by
      simp [horigins, hlist, originOf, hopens.1]
    rw [entries, horigin, hlist, List.zip_append (h.aligned idx).symm]
    simp
  intro hacc
  have hgiven := (accounted_iff hunmarked).mp hacc entry.externalPort hport
  have hnone := List.countP_eq_zero.mp hgiven _ hnew
  simp at hnone

theorem step_timeout {s s' : PortPool} {now : ℤ}
    (h : s.step lib rtable (.timeout now) = some s') :
    natTimeout s.nat now = some s'.nat ∧
      ∀ b, s'.origins b = ((s.entries b).filter fun x => !expired now x.1).map Prod.snd := by
  obtain ⟨nat, hnat, rfl⟩ := Option.map_eq_some_iff.mp h
  exact ⟨hnat, fun b => rfl⟩

theorem Untouched.timeout {s s' : PortPool} (h : s.Untouched) {now : ℤ}
    (hstep : s.step lib rtable (.timeout now) = some s') : s'.Untouched := by
  obtain ⟨hnat, horigins⟩ := step_timeout hstep
  have hswept := natTimeout_eq hnat
  refine ⟨fun b => ?_, fun b o ho => ?_, fun port => by simp [hswept, h.unmarked]⟩
  · have hfst : (s.entries b).map Prod.fst = s.nat.natMappingList b :=
      List.map_fst_zip (h.aligned b).ge
    have hfilter : ((s.entries b).map Prod.fst).filter (fun entry => !expired now entry) =
        ((s.entries b).filter fun x => !expired now x.1).map Prod.fst := List.filter_map
    have hlist : s'.nat.natMappingList b =
        (s.nat.natMappingList b).filter fun entry => !expired now entry := by rw [hswept]
    rw [horigins, hlist, ← hfst, hfilter, List.length_map, List.length_map]
  · rw [horigins] at ho
    obtain ⟨x, hx, rfl⟩ := List.mem_map.mp ho
    exact h.rules b x.2 (List.of_mem_zip (List.mem_filter.mp hx).1).2

/-- The ports that a sweep frees are those of the mappings that it deletes. -/
theorem mem_sweptPorts {nat : NatTable} {now : ℤ} {port : UInt16} :
    port ∈ sweptPorts nat now ↔
      ∃ m, nat.Live m ∧ expired now m = true ∧ m.externalPort = port := by
  simp only [sweptPorts, List.mem_flatMap, List.mem_range, List.mem_map, List.mem_filter,
    NatTable.Live]
  constructor
  · rintro ⟨b, -, m, ⟨hm, hexp⟩, rfl⟩
    exact ⟨m, ⟨_, hm⟩, hexp, rfl⟩
  · rintro ⟨m, ⟨b, hm⟩, hexp, rfl⟩
    exact ⟨b.toNat, b.toNat_lt, m, ⟨by simpa using hm, hexp⟩, rfl⟩

theorem freesUnused_iff {s s' : PortPool} {now : ℤ}
    (hstep : s.step lib rtable (.timeout now) = some s') :
    FreesUnused s s' (.timeout now) ↔ s.Spares lib rtable (.timeout now) := by
  have hswept := natTimeout_eq (step_timeout hstep).1
  have hkept : ∀ m, s'.nat.Live m ↔ s.nat.Live m ∧ expired now m = false := by
    intro m
    simp [NatTable.Live, hswept]
  constructor
  · intro h m m' hm hm' hexp hnot
    exact h _ (mem_sweptPorts.mpr ⟨m, hm, hexp, rfl⟩) m' ((hkept m').mpr ⟨hm', hnot⟩)
  · intro h port hport m' hm'
    obtain ⟨m, hm, hexp, rfl⟩ := mem_sweptPorts.mp hport
    obtain ⟨hlive, hnot⟩ := (hkept m').mp hm'
    exact h m m' hm hlive hexp hnot

/-- From an untouched pool a step keeps the accounting exactly when it spares the pool. -/
theorem Untouched.step_iff {s s' : PortPool} {e : Event} (h : s.Untouched)
    (hstep : s.step lib rtable e = some s') :
    (s'.Accounted ∧ FreesUnused s s' e) ↔ s.Spares lib rtable e := by
  cases e with
  | packet p now heap =>
    constructor
    · intro hacc hopens
      exact h.not_accounted hopens hstep hacc.1
    · intro hno
      exact ⟨(h.packet hno hstep).accounted, trivial⟩
  | timeout now =>
    rw [freesUnused_iff hstep]
    exact and_iff_right (h.timeout hstep).accounted

/-- As long as no connection is opened from inside and no sweep deletes one of several
users of a port, the pool is accounted for in every run; the first step that does
one of them breaks it. -/
theorem pool_accounted {internal external : Option Iface} {rules : List DnatRule} {s : PortPool}
    (h : Reaches (step lib rtable) (Spares lib rtable)
      (fun s => s = init internal external rules) s) :
    s.Accounted ∧ ∀ e s', s.step lib rtable e = some s' →
      ((s'.Accounted ∧ FreesUnused s s' e) ↔ s.Spares lib rtable e) := by
  have huntouched : s.Untouched := by
    refine h.invariant Untouched ?_ ?_
    · rintro s rfl
      exact untouched_init internal external rules
    · intro s e s' hs hok hstep
      cases e with
      | packet p now heap => exact hs.packet hok hstep
      | timeout now => exact hs.timeout hstep
  exact ⟨huntouched.accounted, fun e s' hstep => huntouched.step_iff hstep⟩

end Preserved

section Instance

/-- A rule that forwards the port of `reply` to the first host. -/
def labRule : DnatRule := ⟨outside.ip, 12345, 0x0a150001, 5000⟩

/-- A connection from outside is forwarded by the rule. -/
theorem pool_accounted_lab : ∃ s : PortPool, s.live ≠ [] ∧ s.Accounted := by
  obtain ⟨s, hs⟩ : ∃ s, step linearStack labRoutes (init (some inside) (some outside) [labRule])
      (.packet reply 0 noConnection) = some s := ⟨_, rfl⟩
  have hdir : getPacketDirection linearStack labRoutes
      (init (some inside) (some outside) [labRule]).nat reply = some .dirIn := rfl
  have hok : Spares linearStack labRoutes (init (some inside) (some outside) [labRule])
      (.packet reply 0 noConnection) := by
    intro hopens
    have hout := hopens.1
    rw [hdir] at hout
    cases hout
  refine ⟨s, ?_, (pool_accounted (.next (.start rfl) hok hs)).1⟩
  cases hs
  decide +kernel

/-- A second peer outside that uses the same rule. -/
def secondPeer : Packet := syn 0x9fe2277c 80 0x9fe2272b 12345

/-- One host gets a port that stays unmarked, the next host gets the same port, and a
sweep frees the port of a rule while a connection of the rule goes on. -/
theorem pool_not_accounted :
    (∃ s, Reaches (step linearStack labRoutes) anyStep
      (fun s => s = init (some inside) (some outside) []) s ∧
      12345 ∈ poolPorts ∧ s.given 12345 = 1 ∧ s.nat.assignedPorts 12345 = 0) ∧
    (∃ s, Reaches (step linearStack labRoutes) anyStep
      (fun s => s = init (some inside) (some outside) []) s ∧ s.given 12345 = 2) ∧
    ∃ s, Reaches (step linearStack labRoutes) anyStep
      (fun s => s = init (some inside) (some outside) [labRule]) s ∧
      12345 ∈ sweptPorts s.nat 70 ∧
      ∃ x ∈ s.live, expired 70 x.1 = false ∧ x.1.externalPort = 12345 := by
  refine ⟨?_, ?_, ?_⟩
  · exact exists_of_exec_from _ [.packet firstHost 0 noConnection] _ (by decide +kernel)
  · exact exists_of_exec_from _
      [.packet firstHost 0 noConnection, .packet secondHost 0 noConnection] _ (by decide +kernel)
  · exact exists_of_exec_from _
      [.packet reply 0 noConnection, .packet secondPeer 60 noConnection] _ (by decide +kernel)

end Instance

end PortPool

end NetworkLab.Nat
