import NetworkLab.ArpNetwork

/-!
# Requests that can be answered

On links with few enough addresses `arpcache_insert` never finds its table full, so that it never
writes in front of it. From every state in which packets wait for an address, the ARP request that
has been sent for them and the reply to it are enough to send them all.
-/
namespace NetworkLab.Arp
open GuardedRuns SlotTable

variable {ν lam π : Type*}

section Space

variable {entries : Fin maxArpSize → ArpCacheEntry Mac} {ip4 : UInt32} {mac : Mac} {now : ℤ}
  {rand : ℕ}

/-- No more addresses are in use on the links of the station than the cache has entries. -/
def Topology.Small (T : Topology ν lam) (n : ν) : Prop :=
  ∃ addrs : Finset UInt32, addrs.card ≤ maxArpSize ∧ ∀ ip4 mac, T.Knows n ip4 mac → ip4 ∈ addrs

/-- Entries for all addresses but one leave a slot free. -/
theorem exists_free {addrs : Finset UInt32} (hone : OneEach (view entries))
    (haddrs : ∀ i, (entries i).valid = true → (entries i).ip4 ∈ addrs)
    (hcard : addrs.card ≤ maxArpSize) (hip : ip4 ∈ addrs) (hcached : ¬Cached entries ip4) :
    ∃ i, (entries i).valid = false := by
  by_contra hnone
  have hfull (i : Fin maxArpSize) : (entries i).valid = true := by
    by_contra hi
    exact hnone ⟨i, by simpa using hi⟩
  have hmaps : Set.MapsTo (fun i => (entries i).ip4) (Finset.univ : Finset (Fin maxArpSize))
      (addrs.erase ip4) := by
    intro i _
    exact Finset.mem_erase.mpr ⟨fun heq => hcached ⟨i, hfull i, heq⟩, haddrs i (hfull i)⟩
  have hinj : Set.InjOn (fun i => (entries i).ip4) (Finset.univ : Finset (Fin maxArpSize)) :=
    fun i _ j _ heq => hone i j (entries i).ip4 (holds_view_iff.mpr ⟨hfull i, rfl⟩)
      (holds_view_iff.mpr ⟨hfull j, heq.symm⟩)
  have hle := Finset.card_le_card_of_injOn _ hmaps hinj
  rw [Finset.card_univ, Fintype.card_fin, Finset.card_erase_of_mem hip] at hle
  have hpos := Finset.card_pos.mpr ⟨ip4, hip⟩
  omega

/-- With an entry for the address, or a free slot, an insertion writes into the table, and a lookup
finds what it has written. -/
theorem lookup_insertEntry (hone : OneEach (view entries))
    (hroom : Cached entries ip4 ∨ ∃ i, (entries i).valid = false) :
    arpcacheLookup (insertEntry entries ip4 mac now rand) ip4 = some mac := by
  by_cases hcached : Cached entries ip4
  · exact (insertRight_of_cached hone hcached).found
  · have hfree := hroom.resolve_left hcached
    have hunique := oneEach_insertEntry hone ip4 mac now rand
    rw [insertEntry_of_free hcached hfree, view_update] at hunique
    rw [arpcacheLookup_eq, insertEntry_of_free hcached hfree, view_update,
      lookup_update (List.mem_finRange _) hunique]

theorem insertSlots_in_table (hroom : Cached entries ip4 ∨ ∃ i, (entries i).valid = false) :
    ∀ pos ∈ insertSlots entries ip4 rand, 0 ≤ pos ∧ pos < maxArpSize := by
  intro pos hpos
  by_cases hcached : Cached entries ip4
  · obtain ⟨i, rfl, -⟩ := (mem_insertSlots_of_cached hcached).mp hpos
    exact ⟨Int.natCast_nonneg _, Int.ofNat_lt.mpr i.isLt⟩
  · have hnotall : ¬∀ i, (entries i).valid = true := by
      simpa using hroom.resolve_left hcached
    rw [insertSlots_of_not_cached hcached, if_neg hnotall, List.mem_singleton] at hpos
    rw [hpos]
    exact ⟨Int.natCast_nonneg _, Int.ofNat_lt.mpr (Fin.isLt _)⟩

end Space

section Tables

variable [DecidableEq ν] [DecidableEq lam] {T : Topology ν lam} {s t : Net ν π} {n : ν}

theorem Net.step_cases {e : Net.Event ν π} (hstep : s.step T e = some t) :
    ∃ n a, s.act T n a = some t := by
  cases e with
  | act n a =>
    rw [Net.step] at hstep
    split_ifs at hstep
    exact ⟨n, a, hstep⟩
  | deliver n iface k =>
    obtain ⟨sent, -, hstep⟩ := Option.bind_eq_some_iff.mp hstep
    split_ifs at hstep
    exact ⟨n, _, hstep⟩

theorem Net.oneEach_of_reaches (h : Reaches (Net.step T) anyStep Net.Initial s) (n : ν) :
    OneEach (view (s.station n).cache.entries) := by
  refine h.invariant (fun s => ∀ n, OneEach (view (s.station n).cache.entries)) ?_ ?_ n
  · exact fun s hs n => oneEach_of_not_valid (hs.1 n).1.2
  · intro s e t hone _ hstep m
    obtain ⟨n, a, hact⟩ := Net.step_cases hstep
    obtain ⟨next, frames, hnext, hstation, -, -⟩ := Net.act_cases hact
    rw [hstation]
    by_cases hm : m = n
    · rw [hm, Function.update_self]
      rcases Station.cache_step hnext with hsame | ⟨e, hcache⟩
      · rw [hsame]
        exact hone n
      · rcases World.entries_step hcache with heq | ⟨ip4, mac, now, rand, heq⟩ | ⟨now, heq⟩
        · rw [heq]
          exact hone n
        · rw [heq]
          exact oneEach_insertEntry (hone n) ip4 mac now rand
        · rw [heq]
          exact oneEach_expireEntries (hone n)
    · rw [Function.update_of_ne hm]
      exact hone m

/-- What a station may learn has an entry, or there is room for one. -/
theorem Net.room_of_reaches (h : Reaches (Net.step T) anyStep Net.Initial s) (hsmall : T.Small n)
    {ip4 : UInt32} {mac : Mac} (hknown : T.Knows n ip4 mac) :
    Cached (s.station n).cache.entries ip4 ∨
      ∃ i, ((s.station n).cache.entries i).valid = false := by
  obtain ⟨addrs, hcard, haddrs⟩ := hsmall
  have hentries := ((Net.Right.of_reaches h).stations n).entries
  refine or_iff_not_imp_left.mpr fun hcached => ?_
  exact exists_free (Net.oneEach_of_reaches h n) (fun i hi => haddrs _ _ (hentries i hi)) hcard
    (haddrs _ _ hknown) hcached

/-- With few enough addresses no insertion writes outside of the table, in any run. -/
theorem insertions_stay_in_table (hsmall : T.Small n)
    (h : Reaches (Net.step T) anyStep Net.Initial s) {entry : UInt32 × Mac}
    (hentry : entry ∈ (s.station n).learned) (rand : ℕ) :
    ∀ pos ∈ insertSlots (s.station n).cache.entries entry.1 rand, 0 ≤ pos ∧ pos < maxArpSize :=
  insertSlots_in_table (Net.room_of_reaches h hsmall
    (((Net.Right.of_reaches h).stations n).learned entry hentry))

theorem small_pair (n : Bool) : pair.Small n := by
  refine ⟨{10, 20}, by decide, ?_⟩
  rintro ip4 mac ⟨m, j, -, i, -, -, heq⟩
  cases m with
  | false =>
    obtain ⟨-, rfl⟩ := IfaceInfo.mk.inj heq
    decide
  | true =>
    obtain ⟨-, rfl⟩ := IfaceInfo.mk.inj heq
    decide

theorem insertions_stay_in_table_pair : ∃ s : Net Bool ℕ, ∃ entry ∈ (s.station false).learned,
    ∀ pos ∈ insertSlots (s.station false).cache.entries entry.1 7, 0 ≤ pos ∧ pos < maxArpSize := by
  have hrun : ∃ s : Net Bool ℕ, Reaches (Net.step pair) anyStep Net.Initial s ∧
      (20, Vector.replicate 6 2) ∈ (s.station false).learned :=
    exists_of_exec initial_quiet (pairEvents.take 5) _ (by decide +kernel)
  obtain ⟨s, hs, hlearned⟩ := hrun
  exact ⟨s, _, hlearned, insertions_stay_in_table (small_pair false) hs hlearned 7⟩

end Tables

section Asking

variable {info : ℤ → IfaceInfo} {s t : Station π} {frames : List (ℤ × Frame π)}
  {asked asked' : ℤ × UInt32 → Prop}

/-- For each request the ARP request has been sent, or the call that has made it is still to send
it. -/
structure Station.Asks (asked : ℤ × UInt32 → Prop) (s : Station π) : Prop where
  serials : (s.asking.map Prod.fst).Perm s.cache.toRequest
  asked : ∀ req ∈ s.cache.reqList, (req.serial, req.key) ∈ s.asking ∨ asked req.key

theorem Station.Asks.mono (h : s.Asks asked) (hasked : ∀ key, asked key → asked' key) :
    s.Asks asked' :=
  ⟨h.serials, fun req hreq => (h.asked req hreq).imp_right (hasked _)⟩

theorem perm_eraseIdx_fst {asking : List (ℕ × (ℤ × UInt32))} {toRequest : List ℕ} {k : ℕ}
    {call : ℕ × (ℤ × UInt32)} (h : (asking.map Prod.fst).Perm toRequest)
    (hk : asking[k]? = some call) :
    ((asking.eraseIdx k).map Prod.fst).Perm (toRequest.erase call.1) := by
  obtain ⟨hlt, rfl⟩ := List.getElem?_eq_some_iff.mp hk
  have hperm := ((List.getElem_cons_eraseIdx_perm hlt).map Prod.fst).trans h
  rw [List.map_cons] at hperm
  have herase := hperm.erase asking[k].1
  rwa [List.erase_cons_head] at herase

/-- Requests that are left, with the calls that are to ask for them. -/
theorem Station.Asks.shrink (h : s.Asks asked)
    (hreqs : ∀ req' ∈ t.cache.reqList, ∃ req ∈ s.cache.reqList, req'.key = req.key ∧
      req'.serial = req.serial)
    (hto : t.cache.toRequest = s.cache.toRequest) (hasking : t.asking = s.asking) :
    t.Asks asked := by
  refine ⟨?_, fun req' hreq' => ?_⟩
  · rw [hasking, hto]
    exact h.serials
  obtain ⟨req, hreq, hkey, hserial⟩ := hreqs req' hreq'
  rw [hkey, hserial, hasking]
  exact h.asked req hreq

theorem Station.Asks.step {a : Action π} (h : s.Asks asked)
    (hasked : ∀ k call, a = .request k → s.asking[k]? = some call → asked call.2)
    (hstep : s.step info a = some (t, frames)) : t.Asks asked := by
  cases a with
  | send iface dstIp packet =>
    rw [Station.step] at hstep
    split at hstep
    · obtain ⟨rfl, -⟩ := Prod.mk.inj (Option.some.inj hstep)
      exact h
    · obtain ⟨rfl, -⟩ := Prod.mk.inj (Option.some.inj hstep)
      exact ⟨h.serials, h.asked⟩
  | receive iface frame =>
    rw [Station.step] at hstep
    split at hstep
    · obtain ⟨rfl, -⟩ := Prod.mk.inj (Option.some.inj hstep)
      exact h
    · obtain ⟨rfl, -⟩ := Prod.mk.inj (Option.some.inj hstep)
      exact ⟨h.serials, h.asked⟩
  | append k now =>
    obtain ⟨call, -, hstep⟩ := Option.bind_eq_some_iff.mp hstep
    obtain ⟨cache, hcache, heq⟩ := Option.map_eq_some_iff.mp hstep
    obtain ⟨rfl, -⟩ := Prod.mk.inj heq
    rcases append_cases hcache with ⟨pre, req, post, hreqs, -, hfound, rfl⟩ | ⟨hfound, rfl⟩
    · rw [hfound]
      refine ⟨h.serials, fun r hr => ?_⟩
      have hold := h.asked
      rw [hreqs] at hold
      rcases List.mem_append.mp hr with hpre | hr
      · exact hold r (List.mem_append_left _ hpre)
      · rcases List.mem_cons.mp hr with rfl | hpost
        · exact hold req (List.mem_append_right _ List.mem_cons_self)
        · exact hold r (List.mem_append_right _ (List.mem_cons_of_mem _ hpost))
    · rw [hfound]
      refine ⟨h.serials.cons _, fun r hr => ?_⟩
      rcases List.mem_cons.mp hr with rfl | hr
      · exact .inl List.mem_cons_self
      · exact (h.asked r hr).imp_left (List.mem_cons_of_mem _)
  | request k =>
    obtain ⟨call, hk, hstep⟩ := Option.bind_eq_some_iff.mp hstep
    obtain ⟨cache, hcache, heq⟩ := Option.map_eq_some_iff.mp hstep
    obtain ⟨rfl, -⟩ := Prod.mk.inj heq
    have hcall := hasked k call rfl hk
    rw [World.step] at hcache
    split_ifs at hcache
    obtain rfl := Option.some.inj hcache
    refine ⟨perm_eraseIdx_fst h.serials hk, fun r hr => ?_⟩
    rcases h.asked r hr with hin | hold
    · obtain ⟨hlt, hget⟩ := List.getElem?_eq_some_iff.mp hk
      have hmem := (List.getElem_cons_eraseIdx_perm hlt).mem_iff.mpr hin
      rcases List.mem_cons.mp hmem with heq | hrest
      · rw [hget] at heq
        rw [← heq] at hcall
        exact .inr hcall
      · exact .inl hrest
    · exact .inr hold
  | insert k now rand =>
    obtain ⟨entry, -, hstep⟩ := Option.bind_eq_some_iff.mp hstep
    obtain ⟨cache, hcache, heq⟩ := Option.map_eq_some_iff.mp hstep
    obtain ⟨rfl, -⟩ := Prod.mk.inj heq
    obtain ⟨-, -, hto, -⟩ := insert_cases hcache
    exact h.shrink (fun r hr => ⟨r, mem_of_insert hcache r hr, rfl, rfl⟩) hto rfl
  | sweep now =>
    obtain ⟨cache, hcache, heq⟩ := Option.map_eq_some_iff.mp hstep
    obtain ⟨rfl, -⟩ := Prod.mk.inj heq
    rw [World.step] at hcache
    split at hcache
    · obtain rfl := Option.some.inj hcache
      refine h.shrink (fun r hr => ?_) rfl rfl
      obtain ⟨req, hreq, hkey, hserial, -⟩ := of_mem_sweepReqs hr
      exact ⟨req, hreq, hkey, hserial⟩
    · cases hcache
  | report =>
    obtain ⟨cache, hcache, heq⟩ := Option.map_eq_some_iff.mp hstep
    obtain ⟨rfl, -⟩ := Prod.mk.inj heq
    rw [World.step] at hcache
    split at hcache
    · cases hcache
    · obtain rfl := Option.some.inj hcache
      exact h.shrink (fun r hr => ⟨r, hr, rfl, rfl⟩) rfl rfl

end Asking

section Progress

variable [DecidableEq ν] [DecidableEq lam] {T : Topology ν lam} {s t : Net ν π} {n m : ν} {i j : ℤ}

/-- The ARP request for an address has been sent from an interface. -/
def Net.Asked (T : Topology ν lam) (s : Net ν π) (n : ν) (key : ℤ × UInt32) : Prop :=
  ((n, key.1), arpRequest (T.info n key.1) key.2) ∈ s.wire

theorem Net.asks_of_reaches (h : Reaches (Net.step T) anyStep Net.Initial s) (n : ν) :
    (s.station n).Asks (s.Asked T n) := by
  refine h.invariant (fun s => ∀ n, (s.station n).Asks (s.Asked T n)) (fun s hs n => ?_) ?_ n
  · obtain ⟨⟨⟨⟨hreqs, -, hto, -⟩, -⟩, -, hasking, -⟩⟩ := And.intro (hs.1 n) trivial
    refine ⟨?_, ?_⟩
    · rw [hto, hasking]
      rfl
    · rw [hreqs]
      exact List.forall_mem_nil _
  · intro s e t hasks _ hstep m
    obtain ⟨n, a, hact⟩ := Net.step_cases hstep
    obtain ⟨next, frames, hnext, hstation, hwire, -⟩ := Net.act_cases hact
    have hmono (m : ν) (key : ℤ × UInt32) (hold : s.Asked T m key) : t.Asked T m key := by
      rw [Net.Asked, hwire]
      exact List.mem_append_left _ hold
    rw [hstation]
    by_cases hm : m = n
    · rw [hm, Function.update_self]
      refine ((hasks n).mono (hmono n)).step (fun k call ha hk => ?_) hnext
      rw [ha] at hnext
      obtain ⟨call', hk', hnext⟩ := Option.bind_eq_some_iff.mp hnext
      obtain ⟨cache, -, heq⟩ := Option.map_eq_some_iff.mp hnext
      obtain ⟨-, rfl⟩ := Prod.mk.inj heq
      obtain rfl : call' = call := Option.some.inj (hk'.symm.trans hk)
      rw [Net.Asked, hwire]
      exact List.mem_append_right _ List.mem_cons_self
    · rw [Function.update_of_ne hm]
      exact (hasks m).mono (hmono m)

/-- A state that can be reached from another one, with what has been on the wire before. -/
def Net.Later (T : Topology ν lam) (s t : Net ν π) : Prop :=
  Reaches (Net.step T) anyStep (fun u => u = s) t ∧ s.wire ⊆ t.wire

theorem Net.Later.trans {u : Net ν π} (hst : s.Later T t) (htu : t.Later T u) : s.Later T u :=
  ⟨hst.1.trans htu.1, List.Subset.trans hst.2 htu.2⟩

theorem Net.later_of_act {e : Net.Event ν π} {a : Action π} (hstep : s.step T e = some t)
    (hact : s.act T n a = some t) : s.Later T t := by
  obtain ⟨next, frames, -, -, hwire, -⟩ := Net.act_cases hact
  refine ⟨.next (.start rfl) trivial hstep, ?_⟩
  rw [hwire]
  exact List.subset_append_left _ _

theorem Net.step_act {a : Action π} (hlocal : a.Local (T.ifaces n)) :
    s.step T (.act n a) = s.act T n a := if_pos hlocal

/-- The ARP request for packets that wait is on the wire, or can be sent. -/
theorem Net.exists_asked (h : Reaches (Net.step T) anyStep Net.Initial s) {req : ArpReq π}
    (hreq : req ∈ (s.station n).cache.reqList) :
    ∃ t, s.Later T t ∧ t.Asked T n req.key ∧
      (t.station n).cache.reqList = (s.station n).cache.reqList := by
  have hasks := Net.asks_of_reaches h n
  rcases hasks.asked req hreq with hin | hasked
  · obtain ⟨k, hk⟩ := List.getElem?_of_mem hin
    have hto : req.serial ∈ (s.station n).cache.toRequest :=
      hasks.serials.mem_iff.mp (List.mem_map_of_mem hin)
    have hstation : ∃ next frames, (s.station n).step (T.info n) (.request k) =
        some (next, frames) ∧ next.cache.reqList = (s.station n).cache.reqList ∧
        frames = [(req.key.1, arpRequest (T.info n req.key.1) req.key.2)] := by
      rw [Station.step, hk, Option.bind_some, World.step, if_pos hto]
      exact ⟨_, _, rfl, rfl, rfl⟩
    obtain ⟨next, frames, hnext, hreqs, rfl⟩ := hstation
    have hact : ∃ t, s.act T n (.request k) = some t ∧ t.station n = next ∧
        t.Asked T n req.key := by
      rw [Net.act, hnext]
      exact ⟨_, rfl, Function.update_self .., List.mem_append_right _ List.mem_cons_self⟩
    obtain ⟨t, ht, hn, hasked⟩ := hact
    have hstep : s.step T (.act n (.request k)) = some t :=
      (Net.step_act (a := .request k) trivial).trans ht
    exact ⟨t, Net.later_of_act hstep ht, hasked, hn ▸ hreqs⟩
  · exact ⟨s, ⟨.start rfl, List.Subset.refl _⟩, hasked, rfl⟩

/-- The delivery of a frame with an ARP packet. -/
theorem Net.exists_heard {frame : Frame π} {arp : EtherArp} (hframe : ((m, j), frame) ∈ s.wire)
    (harp : frame.payload = .arp arp) (hi : i ∈ T.ifaces n) (hne : (n, i) ≠ (m, j))
    (hlink : T.link n i = T.link m j) :
    ∃ t, s.Later T t ∧
      (t.station n).learned =
        (s.station n).learned ++ (handleArpPacket (T.info n i) arp : Handled π).2 ∧
      (∀ n', (t.station n').cache = (s.station n').cache) ∧
      ∀ reply ∈ (handleArpPacket (T.info n i) arp : Handled π).1, ((n, i), reply) ∈ t.wire := by
  obtain ⟨k, hk⟩ := List.getElem?_of_mem hframe
  have hact : ∃ t, s.act T n (.receive i frame) = some t ∧
      t.station = Function.update s.station n { s.station n with
        learned := (s.station n).learned ++ (handleArpPacket (T.info n i) arp : Handled π).2 } ∧
      t.wire = s.wire ++ ((handleArpPacket (T.info n i) arp : Handled π).1.map (i, ·)).map
        fun sent => ((n, sent.1), sent.2) := by
    rw [Net.act, Station.step, harp]
    exact ⟨_, rfl, rfl, rfl⟩
  obtain ⟨t, ht, hstation, hwire⟩ := hact
  have hstep : s.step T (.deliver n i k) = some t := by
    rw [Net.step, hk, Option.bind_some, if_pos ⟨hi, hne, hlink⟩]
    exact ht
  refine ⟨t, Net.later_of_act hstep ht, ?_, fun n' => ?_, fun reply hreply => ?_⟩
  · rw [hstation, Function.update_self]
  · rw [hstation]
    by_cases hn : n' = n
    · rw [hn, Function.update_self]
    · rw [Function.update_of_ne hn]
  · rw [hwire]
    exact List.mem_append_right _ (List.mem_map_of_mem (List.mem_map_of_mem hreply))

/-- A reply to a station makes it insert the address. -/
theorem handleArpPacket_reply (iface owner : IfaceInfo) (dstIp : UInt32) :
    (handleArpPacket iface (replyArp owner (requestArp iface dstIp)) : Handled π) =
      ([], [(owner.ip, owner.mac)]) := by
  have hop : ntohs (replyArp owner (requestArp iface dstIp)).arpOp = arpopReply :=
    Mospf.htons_htons _
  have htpa : ntohl (replyArp owner (requestArp iface dstIp)).arpTpa = iface.ip :=
    Mospf.htonl_htonl _
  have hspa : ntohl (replyArp owner (requestArp iface dstIp)).arpSpa = owner.ip :=
    Mospf.htonl_htonl _
  rw [handleArpPacket, hop, if_neg (by decide), if_pos rfl, htpa, if_pos rfl, hspa]
  rfl

/-- A request to the station with the address makes it reply. -/
theorem handleArpPacket_request (iface owner : IfaceInfo) :
    arpReply owner (requestArp iface owner.ip) ∈
      (handleArpPacket owner (requestArp iface owner.ip) : Handled π).1 := by
  have hop : ntohs (requestArp iface owner.ip).arpOp = arpopRequest := Mospf.htons_htons _
  have htpa : ntohl (requestArp iface owner.ip).arpTpa = owner.ip := Mospf.htonl_htonl _
  rw [handleArpPacket, if_pos hop, if_pos htpa.symm]
  exact List.mem_cons_self

/-- The address has been learned and is inserted. -/
theorem Net.exists_inserted (h : Reaches (Net.step T) anyStep Net.Initial s) (hsmall : T.Small n)
    {entry : UInt32 × Mac} (hentry : entry ∈ (s.station n).learned) :
    ∃ t, s.Later T t ∧ arpcacheLookup (t.station n).cache.entries entry.1 = some entry.2 ∧
      (((∀ req ∈ (s.station n).cache.reqList, req.ip4 ≠ entry.1) ∧
          (t.station n).cache.reqList = (s.station n).cache.reqList) ∨
        ∃ pre req post, (s.station n).cache.reqList = pre ++ req :: post ∧ req.ip4 = entry.1 ∧
          (t.station n).cache.reqList = pre ++ post ∧ ∀ packet ∈ req.cachedPackets,
            ((n, req.iface), (ipFrame (T.info n) req.iface entry.2 packet).2) ∈ t.wire) := by
  obtain ⟨k, hk⟩ := List.getElem?_of_mem hentry
  have hcache : ∃ cache, (s.station n).cache.step (.insert entry.1 entry.2 0 0) = some cache := by
    rw [World.step]
    split
    · exact ⟨_, rfl⟩
    · exact ⟨_, rfl⟩
  obtain ⟨cache, hcache⟩ := hcache
  have hact : ∃ t, s.act T n (.insert k 0 0) = some t ∧ (t.station n).cache = cache ∧
      t.wire = s.wire ++ ((cache.sent.drop (s.station n).cache.sent.length).map fun p =>
        ipFrame (T.info n) p.key.1 p.mac p.packet).map fun sent => ((n, sent.1), sent.2) := by
    rw [Net.act, Station.step, hk, Option.bind_some, hcache]
    refine ⟨_, rfl, ?_, rfl⟩
    show (Function.update s.station n _ n).cache = cache
    rw [Function.update_self]
  obtain ⟨t, ht, rfl, hwire⟩ := hact
  obtain ⟨hentries, -, -, hreqs⟩ := insert_cases hcache
  have hstep : s.step T (.act n (.insert k 0 0)) = some t :=
    (Net.step_act (a := .insert k 0 0) trivial).trans ht
  refine ⟨t, Net.later_of_act hstep ht, ?_, ?_⟩
  · rw [hentries]
    exact lookup_insertEntry (Net.oneEach_of_reaches h n) (Net.room_of_reaches h hsmall
      (((Net.Right.of_reaches h).stations n).learned entry hentry))
  · rcases hreqs with ⟨hnone, hsame, -⟩ | ⟨pre, req, post, hold, hip, hrest, hsent⟩
    · exact .inl ⟨hnone, hsame⟩
    · refine .inr ⟨pre, req, post, hold, hip, hrest, fun packet hpacket => ?_⟩
      rw [hwire, hsent, List.drop_left]
      exact List.mem_append_right _ (List.mem_map_of_mem (List.mem_map_of_mem
        (List.mem_map_of_mem hpacket)))

/-- One reply flushes one request. -/
theorem Net.exists_round (h : Reaches (Net.step T) anyStep Net.Initial s) (hsmall : T.Small n)
    (hi : i ∈ T.ifaces n) (hne : (n, i) ≠ (m, j)) (hlink : T.link n i = T.link m j)
    {dstIp : UInt32}
    (hreply : ((m, j), arpReply (T.info m j) (requestArp (T.info n i) dstIp)) ∈ s.wire) :
    ∃ t, s.Later T t ∧
      arpcacheLookup (t.station n).cache.entries (T.info m j).ip = some (T.info m j).mac ∧
      (((∀ req ∈ (s.station n).cache.reqList, req.ip4 ≠ (T.info m j).ip) ∧
          (t.station n).cache.reqList = (s.station n).cache.reqList) ∨
        ∃ pre req post, (s.station n).cache.reqList = pre ++ req :: post ∧
          req.ip4 = (T.info m j).ip ∧ (t.station n).cache.reqList = pre ++ post ∧
          ∀ packet ∈ req.cachedPackets,
            ((n, req.iface), (ipFrame (T.info n) req.iface (T.info m j).mac packet).2) ∈
              t.wire) := by
  obtain ⟨u, hu, hlearned, hcache, -⟩ := Net.exists_heard hreply rfl hi hne hlink
  rw [handleArpPacket_reply] at hlearned
  have hentry : ((T.info m j).ip, (T.info m j).mac) ∈ (u.station n).learned := by
    rw [hlearned]
    exact List.mem_append_right _ List.mem_cons_self
  obtain ⟨t, ht, hlookup, hreqs⟩ := Net.exists_inserted (h.trans hu.1) hsmall hentry
  rw [hcache n] at hreqs
  exact ⟨t, hu.trans ht, hlookup, hreqs⟩

/-- With the reply on the wire all that waits for the address can be sent, one request after the
other. -/
theorem Net.exists_flushed (h : Reaches (Net.step T) anyStep Net.Initial s) (hsmall : T.Small n)
    (hi : i ∈ T.ifaces n) (hne : (n, i) ≠ (m, j)) (hlink : T.link n i = T.link m j)
    {dstIp : UInt32}
    (hreply : ((m, j), arpReply (T.info m j) (requestArp (T.info n i) dstIp)) ∈ s.wire) :
    ∃ t, s.Later T t ∧
      arpcacheLookup (t.station n).cache.entries (T.info m j).ip = some (T.info m j).mac ∧
      (∀ r ∈ (t.station n).cache.reqList, r.ip4 ≠ (T.info m j).ip) ∧
      ∀ r ∈ (s.station n).cache.reqList, r.ip4 = (T.info m j).ip → ∀ packet ∈ r.cachedPackets,
        ((n, r.iface), (ipFrame (T.info n) r.iface (T.info m j).mac packet).2) ∈ t.wire := by
  -- The induction is on the number of requests; the address is for all of them the same.
  generalize hlength : (s.station n).cache.reqList.length = length
  induction length generalizing s with
  | zero =>
    have hnil := List.eq_nil_of_length_eq_zero hlength
    obtain ⟨t, ht, hlookup, hreqs⟩ := Net.exists_round h hsmall hi hne hlink hreply
    rcases hreqs with ⟨-, hsame⟩ | ⟨pre, req, post, hold, -⟩
    · refine ⟨t, ht, hlookup, ?_, ?_⟩
      · rw [hsame, hnil]
        exact List.forall_mem_nil _
      · rw [hnil]
        exact List.forall_mem_nil _
    · rw [hnil] at hold
      exact absurd hold (List.append_ne_nil_of_right_ne_nil _ (List.cons_ne_nil _ _)).symm
  | succ length ih =>
    obtain ⟨u, hu, hlookup, hreqs⟩ := Net.exists_round h hsmall hi hne hlink hreply
    rcases hreqs with ⟨hnone, hsame⟩ | ⟨pre, req, post, hold, hip, hrest, hsent⟩
    · refine ⟨u, hu, hlookup, hsame ▸ hnone, fun r hr hr' => absurd hr' (hnone r hr)⟩
    · have hshort : (u.station n).cache.reqList.length = length := by
        rw [hold, List.length_append, List.length_cons] at hlength
        rw [hrest, List.length_append]
        omega
      obtain ⟨t, ht, hlookup, hgone, hflushed⟩ := ih (h.trans hu.1) (hu.2 hreply) hshort
      refine ⟨t, hu.trans ht, hlookup, hgone, fun r hr hr' packet hpacket => ?_⟩
      rw [hold, List.mem_append, List.mem_cons] at hr
      rcases hr with hpre | rfl | hpost
      · exact hflushed r (hrest ▸ List.mem_append_left _ hpre) hr' packet hpacket
      · exact ht.2 (hsent packet hpacket)
      · exact hflushed r (hrest ▸ List.mem_append_right _ hpost) hr' packet hpacket

/-- From every state of every run, with packets that wait for the address of another interface on
the link: the run can go on so that they have all been sent to that interface, the address is
found, and no packet waits for it. -/
theorem waiting_resolves (h : Reaches (Net.step T) anyStep Net.Initial s) (hsmall : T.Small n)
    {req : ArpReq π} (hreq : req ∈ (s.station n).cache.reqList) (hj : j ∈ T.ifaces m)
    (hne : (n, req.iface) ≠ (m, j)) (hlink : T.link n req.iface = T.link m j)
    (hip : (T.info m j).ip = req.ip4) :
    ∃ t, Reaches (Net.step T) anyStep (fun u => u = s) t ∧
      arpcacheLookup (t.station n).cache.entries req.ip4 = some (T.info m j).mac ∧
      (∀ r ∈ (t.station n).cache.reqList, r.ip4 ≠ req.ip4) ∧
      ∀ r ∈ (s.station n).cache.reqList, r.ip4 = req.ip4 → ∀ packet ∈ r.cachedPackets,
        ((n, r.iface), (ipFrame (T.info n) r.iface (T.info m j).mac packet).2) ∈ t.wire := by
  have hi := (((Net.Right.of_reaches h).stations n).waiting req hreq).1
  obtain ⟨u₁, hu₁, hasked, hreqs₁⟩ := Net.exists_asked h hreq
  have hframe : ((n, req.iface), arpRequest (T.info n req.iface) (T.info m j).ip) ∈ u₁.wire := by
    rw [hip]
    exact hasked
  obtain ⟨u₂, hu₂, -, hcache₂, hreplied⟩ :=
    Net.exists_heard hframe rfl hj (Ne.symm hne) hlink.symm
  have hreply := hreplied _ (handleArpPacket_request _ _)
  have hlater := hu₁.trans hu₂
  obtain ⟨t, ht, hlookup, hgone, hflushed⟩ :=
    Net.exists_flushed (h.trans hlater.1) hsmall hi hne hlink hreply
  rw [hcache₂ n, hreqs₁] at hflushed
  rw [← hip]
  exact ⟨t, (hlater.trans ht).1, hlookup, hgone, hflushed⟩

theorem waiting_resolves_pair : ∃ s t : Net Bool ℕ,
    (s.station false).cache.reqList.map (·.cachedPackets) = [[7, 8]] ∧
    ((false, 1), (ipFrame (pair.info false) 1 (Vector.replicate 6 2) 8).2) ∈ t.wire ∧
    Reaches (Net.step pair) anyStep (fun u => u = s) t := by
  have hrun : ∃ s : Net Bool ℕ, Reaches (Net.step pair) anyStep Net.Initial s ∧
      (s.station false).cache.reqList.map (fun r => (r.iface, r.ip4, r.cachedPackets)) =
        [(1, 20, [7, 8])] :=
    exists_of_exec initial_quiet [.act false (.send 1 20 7), .act false (.send 1 20 8),
      .act false (.append 0 0), .act false (.append 0 0)] _ (by decide +kernel)
  obtain ⟨s, hs, hreqs⟩ := hrun
  obtain ⟨req, hlist, heq⟩ := List.map_eq_singleton_iff.mp hreqs
  obtain ⟨hiface, hip, hpackets⟩ : req.iface = 1 ∧ req.ip4 = 20 ∧ req.cachedPackets = [7, 8] := by
    simpa using heq
  have hmem : req ∈ (s.station false).cache.reqList := by
    rw [hlist]
    exact List.mem_cons_self
  obtain ⟨t, ht, -, -, hsent⟩ := waiting_resolves hs (small_pair false) (m := true) (j := 1) hmem
    (by decide) (by simp) rfl hip.symm
  refine ⟨s, t, by rw [hlist, List.map_singleton, hpackets], ?_, ht⟩
  have hframe := hsent req hmem rfl 8 (by simp [hpackets])
  rw [hiface] at hframe
  exact hframe

end Progress

end NetworkLab.Arp
