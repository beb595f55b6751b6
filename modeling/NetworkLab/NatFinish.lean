import NetworkLab.NatDelivery

/-!
# Finished flows

The statistics of a connection after any packets in both directions, and what
`is_flow_finished` makes of them. A packet overwrites what earlier packets of its
side have left: the FIN flag, also where it has none, and the sequence end. The
acknowledgement is compared in the byte order of the network, and what no packet has
written is what `malloc` has left.
-/
namespace NetworkLab.Nat

section Statistics

/-- One packet in the statistics of its connection. -/
def record (x : PacketDir × Packet) (conn : NatConnection) : NatConnection :=
  if x.1 = .dirIn then recordExternal x.2 conn else recordInternal x.2 conn

/-- The statistics after the packets in order, from the contents of fresh memory. -/
def connAfter (heap : NatConnection) (xs : List (PacketDir × Packet)) : NatConnection :=
  xs.foldl (fun conn x => record x conn) heap

/-- The packets of the inner node. -/
def fromInside (xs : List (PacketDir × Packet)) : List Packet :=
  (xs.filter fun x => decide (x.1 ≠ .dirIn)).map Prod.snd

/-- The packets of the outer node. -/
def fromOutside (xs : List (PacketDir × Packet)) : List Packet :=
  (xs.filter fun x => decide (x.1 = .dirIn)).map Prod.snd

/-- The acknowledgement number of the latest ACK, in host order. -/
def latestAck (l : List Packet) : Option UInt32 :=
  ((l.filter fun p => decide (p.tcp.flags &&& tcpAck ≠ 0)).getLast?).map fun p => p.tcp.ack

/-- The latest ACK of one side covers all that the other side has sent. -/
def Acked (acker sender : List Packet) : Prop :=
  ∃ ack, latestAck acker = some ack ∧ ∀ p ∈ sender, tcpSeqEnd p.ip p.tcp ≤ ack

def FinSent (l : List Packet) : Prop := ∃ p ∈ l, p.tcp.flags &&& tcpFin ≠ 0

instance (l : List Packet) : Decidable (FinSent l) := inferInstanceAs (Decidable (∃ p ∈ l, _))

/-- Both sides have sent a FIN, and the latest ACK of each side covers what the other
side has sent. -/
def Finished (xs : List (PacketDir × Packet)) : Prop :=
  FinSent (fromInside xs) ∧ FinSent (fromOutside xs) ∧
    Acked (fromInside xs) (fromOutside xs) ∧ Acked (fromOutside xs) (fromInside xs)

/-- The FIN flag of the last packet of a side, or what memory held. -/
def lastFin (l : List Packet) (old : UInt8) : UInt8 := l.getLast?.elim old fun p => finFlag p.tcp

/-- The sequence end of the last packet of a side. -/
def lastSeqEnd (l : List Packet) (old : UInt32) : UInt32 :=
  l.getLast?.elim old fun p => tcpSeqEnd p.ip p.tcp

/-- The latest acknowledgement of a side with its bytes reversed. -/
def lastAck (l : List Packet) (old : UInt32) : UInt32 := (latestAck l).elim old htonl

/-- The last packet of each side has the FIN flag. -/
def LastFins (heap : NatConnection) (xs : List (PacketDir × Packet)) : Prop :=
  lastFin (fromInside xs) heap.internalFin ≠ 0 ∧ lastFin (fromOutside xs) heap.externalFin ≠ 0

instance (heap : NatConnection) (xs : List (PacketDir × Packet)) : Decidable (LastFins heap xs) :=
  inferInstanceAs (Decidable (_ ∧ _))

/-- The latest acknowledgement of each side, read with its bytes reversed, covers the last
packet of the other side. -/
def ReversedAcks (heap : NatConnection) (xs : List (PacketDir × Packet)) : Prop :=
  lastSeqEnd (fromOutside xs) heap.externalSeqEnd ≤ lastAck (fromInside xs) heap.internalAck ∧
    lastSeqEnd (fromInside xs) heap.internalSeqEnd ≤ lastAck (fromOutside xs) heap.externalAck

instance (heap : NatConnection) (xs : List (PacketDir × Packet)) :
    Decidable (ReversedAcks heap xs) := inferInstanceAs (Decidable (_ ∧ _))

/-- The latest ACK of each side covers all that the other side has sent. -/
def AllAcked (xs : List (PacketDir × Packet)) : Prop :=
  Acked (fromInside xs) (fromOutside xs) ∧ Acked (fromOutside xs) (fromInside xs)

/-- The side has sent packets, none of them with a FIN. -/
def KeepsOpen (l : List Packet) : Prop := l ≠ [] ∧ ¬FinSent l

/-- Packets whose order and numbers hide nothing: both sides have closed with their last packets
and acknowledged everything in either byte order, or a side has not closed, or something is not
acknowledged and the last packets show that the flow goes on, by their flags or by their
acknowledgements in the wrong order. -/
inductive Plain (heap : NatConnection) (xs : List (PacketDir × Packet)) : Prop
  | closed (fins : LastFins heap xs) (acked : AllAcked xs) (reversed : ReversedAcks heap xs)
  | keptOpen (side : KeepsOpen (fromInside xs) ∨ KeepsOpen (fromOutside xs))
  | goesOn (unacked : ¬AllAcked xs) (fins : ¬LastFins heap xs)
  | behind (unacked : ¬AllAcked xs) (reversed : ¬ReversedAcks heap xs)

end Statistics

section Calls

variable (lib : IpStack) (rtable : Routes)

/-- A call of `nat_translate_packet`: the packet, the time and what `malloc` gives. -/
structure Call where
  packet : Packet
  now : ℤ
  heap : NatConnection

/-- Calls in order, all of which return. -/
def translateAll (nat : NatTable) : List Call → Option NatTable
  | [] => some nat
  | c :: cs =>
    match natTranslatePacket lib rtable nat c.packet c.now c.heap with
    | .returned nat' _ => translateAll nat' cs
    | _ => none

/-- A TCP packet of the connection of mapping `m`, in its direction; it fits no mapping
that was there before. -/
structure Belongs (nat : NatTable) (m : NatMapping) (x : PacketDir × Packet) : Prop where
  direction : getPacketDirection lib rtable nat x.2 = some x.1
  valid : x.1 ≠ .dirInvalid
  tcp : x.2.ip.protocol = ipprotoTcp
  fits : fits x.1 x.2 m = true
  only : ∀ m' ∈ nat.chain m.remote, Nat.fits x.1 x.2 m' = false

/-- What the table is for a connection: free, with the interfaces of `nat`, and the
mapping of the connection behind the mappings of `nat` in its chain. -/
structure Serves (nat : NatTable) (m : NatMapping) (conn : NatConnection) (nat' : NatTable)
    (m' : NatMapping) : Prop where
  lock : nat'.lock = false
  internal : nat'.internalIface = nat.internalIface
  external : nat'.externalIface = nat.externalIface
  chain : nat'.chain m.remote = nat.chain m.remote ++ [m']
  remote_eq : m'.remote = m.remote
  internal_eq : m'.internal = m.internal
  external_eq : m'.external = m.external
  conn_eq : m'.conn = conn

variable {lib rtable}

/-- The search looks at the endpoints of a mapping only. -/
theorem fits_congr {m m' : NatMapping} (hremote : m'.remote = m.remote)
    (hinternal : m'.internal = m.internal) (hexternal : m'.external = m.external)
    (dir : PacketDir) (p : Packet) : fits dir p m' = fits dir p m := by
  have hm : ∀ m : NatMapping, fits dir p m = (decide (m.remote = remote dir p) &&
      if dir = .dirIn then decide (m.external = (p.ip.daddr, p.tcp.dport))
      else decide (m.internal = (p.ip.saddr, p.tcp.sport))) := fun _ => rfl
  rw [hm, hm, hremote, hinternal, hexternal]

theorem remote_of_fits {m : NatMapping} {dir : PacketDir} {p : Packet}
    (h : fits dir p m = true) : m.remote = remote dir p := by
  simp only [fits, Bool.and_eq_true, decide_eq_true_eq] at h
  exact h.1

/-- A packet that is translated by a mapping of the table. -/
theorem natTranslatePacket_known {nat : NatTable} {p : Packet} {dir : PacketDir} {now : ℤ}
    {heap : NatConnection} {entry : NatMapping}
    (hdir : getPacketDirection lib rtable nat p = some dir) (hvalid : dir ≠ .dirInvalid)
    (htcp : p.ip.protocol = ipprotoTcp) (hlock : nat.lock = false)
    (hfind : (nat.natMappingList (remote2hash (remote dir p).1 (remote dir p).2)).find?
      (fits dir p) = some entry) :
    natTranslatePacket lib rtable nat p now heap = .returned
      { nat with
        natMappingList := fun b =>
          if b = remote2hash (remote dir p).1 (remote dir p).2 then
            updateFirst (fits dir p) (updateMapping dir p now) (nat.natMappingList b)
          else nat.natMappingList b
        lock := false }
      [.ipSendPacket (rewrite dir p entry)] := by
  simp [natTranslatePacket, hdir, hvalid, htcp, doTranslation, hlock, translate, hfind]

/-- A packet of the connection updates its mapping and nothing else of the chain. -/
theorem Serves.packet {nat nat' : NatTable} {m m' : NatMapping} {conn : NatConnection}
    (h : Serves nat m conn nat' m') {dir : PacketDir} {c : Call}
    (hc : Belongs lib rtable nat m (dir, c.packet)) :
    ∃ nat'' actions,
      natTranslatePacket lib rtable nat' c.packet c.now c.heap = .returned nat'' actions ∧
      Serves nat m (record (dir, c.packet) conn) nat'' (updateMapping dir c.packet c.now m') := by
  have hdir : getPacketDirection lib rtable nat' c.packet = some dir := by
    rw [← hc.direction]
    simp [getPacketDirection, h.internal, h.external]
  have hfit : fits dir c.packet m' = true :=
    (fits_congr h.remote_eq h.internal_eq h.external_eq dir c.packet).trans hc.fits
  have hremote : remote dir c.packet = m.remote := (remote_of_fits hc.fits).symm
  have hfind : (nat'.natMappingList (remote2hash (remote dir c.packet).1
      (remote dir c.packet).2)).find? (fits dir c.packet) = some m' := by
    have hchain : nat'.natMappingList (remote2hash (remote dir c.packet).1
        (remote dir c.packet).2) = nat.chain m.remote ++ [m'] := by
      rw [hremote]
      exact h.chain
    have hold : (nat.chain m.remote).find? (fits dir c.packet) = none :=
      List.find?_eq_none.mpr fun x hx => by simp [hc.only x hx]
    rw [hchain, List.find?_append, hold]
    simp [hfit]
  refine ⟨_, _, natTranslatePacket_known hdir hc.valid hc.tcp h.lock hfind, ?_⟩
  refine ⟨rfl, h.internal, h.external, ?_, h.remote_eq, h.internal_eq, h.external_eq, ?_⟩
  · have hchain : nat'.natMappingList (remote2hash m.remote.1 m.remote.2) =
        nat.chain m.remote ++ [m'] := h.chain
    simp only [NatTable.chain, hremote, if_true] at hchain ⊢
    rw [hchain]
    exact updateFirst_append hc.only hfit
  · rw [← h.conn_eq]
    rfl

/-- All packets of a connection are translated and recorded, in order. -/
theorem Serves.translateAll {nat nat' : NatTable} {m m' : NatMapping} {conn : NatConnection}
    (h : Serves nat m conn nat' m') {rest : List (PacketDir × Call)}
    (hrest : ∀ x ∈ rest, Belongs lib rtable nat m (x.1, x.2.packet)) :
    ∃ nat'' m'', Nat.translateAll lib rtable nat' (rest.map Prod.snd) = some nat'' ∧
      Serves nat m (connAfter conn (rest.map fun x => (x.1, x.2.packet))) nat'' m'' := by
  induction rest generalizing nat' m' conn with
  | nil => exact ⟨nat', m', rfl, h⟩
  | cons x rest ih =>
    obtain ⟨nat₂, actions, hcall, hserves⟩ := h.packet (c := x.2) (hrest x List.mem_cons_self)
    obtain ⟨nat'', m'', hall, hafter⟩ :=
      ih hserves fun y hy => hrest y (List.mem_cons_of_mem x hy)
    refine ⟨nat'', m'', ?_, hafter⟩
    simpa [Nat.translateAll, hcall] using hall

end Calls

section Instance

/-- A segment of the first host to the server, and one of the server to the host. -/
def outward (flags : UInt8) (seq ack : UInt32) : PacketDir × Packet :=
  (.dirOut, { firstHost with tcp := { firstHost.tcp with flags, seq, ack } })
def inward (flags : UInt8) (seq ack : UInt32) : PacketDir × Packet :=
  (.dirIn, { reply with tcp := { reply.tcp with flags, seq, ack } })

/-- One call for each packet. -/
def calls (xs : List (PacketDir × Packet)) : List Call := xs.map fun x => ⟨x.2, 0, noConnection⟩

/-- The first host opens a connection. -/
def opening : Call := ⟨firstHost, 0, noConnection⟩

/-- The server answers and both close; the last packet of the host repeats its FIN. -/
def fins : List (PacketDir × Packet) :=
  [inward (tcpSyn ||| tcpAck) 0 1, outward (tcpFin ||| tcpAck) 1 1,
    inward (tcpFin ||| tcpAck) 1 2, outward (tcpFin ||| tcpAck) 1 2]

/-- Host and server close in the usual way. -/
def closing : List (PacketDir × Packet) :=
  [outward tcpSyn 0 0, inward (tcpSyn ||| tcpAck) 0 1, outward (tcpFin ||| tcpAck) 1 1,
    inward (tcpFin ||| tcpAck) 1 2, outward tcpAck 2 2]

end Instance

end NetworkLab.Nat
