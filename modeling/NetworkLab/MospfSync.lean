import Mathlib.Data.Finset.Prod
import Mathlib.Data.Fintype.Basic
import Mathlib.Logic.Relation
import NetworkLab.MospfFlood

/-!
# When flooding has ended

A router that has stored an LSU has sent it to all of its neighbours but those on the link it came
from, and what it is sent from there others on the link are sent too. Once no copy in flight is
newer than what the router has that it is addressed to, all routers therefore have the newest LSU of
each router, whatever has been sent in between. The deliveries that lead there come to an end.
-/
namespace NetworkLab.Mospf
open GuardedRuns

variable {ρ : Type*} {link : ρ × ℤ → ρ × ℤ → Bool} {addr : ρ × ℤ → UInt32} {s t : Flood ρ}
  {content : UInt32 → UInt16 → List MospfLsa} {ids : ρ → UInt32} {v : ρ} {lsu : Lsu}

section Model

/-- The tables of a router are those of its links: it has the address of each of its interfaces
there, every router on a link is among the neighbours, and has a route, and the routes of
neighbours lead out of the interfaces they are heard on. -/
structure Covers (link : ρ × ℤ → ρ × ℤ → Bool) (addr : ρ × ℤ → UInt32) (v : ρ) (r : Router) :
    Prop where
  own : ∀ a i, link a (v, i) = true →
    ∃ ientry ∈ r.ifaceList, ientry.index = i ∧ ientry.ip = addr (v, i)
  heard : ∀ i b, link (v, i) b = true → ∃ ientry ∈ r.ifaceList, ientry.index = i ∧
    ientry.numNbr ≠ 0 ∧ (∃ nbr ∈ ientry.nbrList, nbr.nbrIp = addr b) ∧
      longestPrefixMatch r.rtable (addr b) ≠ none
  routed : ∀ ientry ∈ r.ifaceList, ∀ nbr ∈ ientry.nbrList, ∀ entry,
    longestPrefixMatch r.rtable nbr.nbrIp = some entry → entry.iface = ientry.index

/-- Routers begin to flood LSUs of their own, with one content for each number, and what is sent
arrives only where it is addressed to. No entry is taken out, and no router on a link is
forgotten. -/
def Honest (link : ρ × ℤ → ρ × ℤ → Bool) (addr : ρ × ℤ → UInt32)
    (content : UInt32 → UInt16 → List MospfLsa) (s : Flood ρ) : FloodEvent ρ → Prop
  | .inject v _ packet => packet.lsu.rid = (s.routers v).routerId ∧
      packet.lsu.array = content packet.lsu.rid packet.lsu.seq
  | .deliver m v iface => (s.routers v).Addressed iface m.packet.daddr
  | .database v db => keepsEntries s (.database v db)
  | .neighbours v ifaceList => Covers link addr v { s.routers v with ifaceList := ifaceList }
  | .routes v rtable => Covers link addr v { s.routers v with rtable := rtable }

/-- Routers that know their neighbours and nothing else. -/
structure Flood.Fresh (link : ρ × ℤ → ρ × ℤ → Bool) (addr : ρ × ℤ → UInt32) (ids : ρ → UInt32)
    (s : Flood ρ) : Prop where
  initial : s.Initial
  routerId : ∀ v, (s.routers v).routerId = ids v
  empty : ∀ v, (s.routers v).db = []
  covers : ∀ v, Covers link addr v (s.routers v)

/-- There is a copy of the LSU that the router has sent from the interface to the address. -/
def Flood.Sent (s : Flood ρ) (v : ρ) (i : ℤ) (daddr : UInt32) (lsu : Lsu) : Prop :=
  ∃ m ∈ s.flight, m.sender = v ∧ m.iface = i ∧ m.packet.daddr = daddr ∧ m.packet.lsu = lsu

/-- A router has sent an LSU of its own to all routers on its links. -/
def Flood.Announced (link : ρ × ℤ → ρ × ℤ → Bool) (addr : ρ × ℤ → UInt32) (s : Flood ρ) (v : ρ)
    (lsu : Lsu) : Prop :=
  lsu.rid = (s.routers v).routerId ∧ ∀ i b, link (v, i) b = true → s.Sent v i (addr b) lsu

/-- No copy in flight would be stored if it were delivered where it is addressed to. -/
def Flood.Settled (link : ρ × ℤ → ρ × ℤ → Bool) (s : Flood ρ) : Prop :=
  ∀ m ∈ s.flight, ∀ v i, link (m.sender, m.iface) (v, i) = true →
    (s.routers v).Addressed i m.packet.daddr →
      handleMospfLsu (s.routers v).routerId (s.routers v).db m.packet.lsu = none

/-- Two routers on one link. -/
def Adjacent (link : ρ × ℤ → ρ × ℤ → Bool) (u v : ρ) : Prop :=
  ∃ i j, link (u, i) (v, j) = true

end Model

section Invariant

/-- The database says something at least as new. -/
def Stored (db : List MospfDbEntry) (rid : UInt32) (seq : UInt16) : Prop :=
  ∃ stored ∈ entryOf db rid, seq ≤ stored.1

/-- A router that is not the origin has stored what it sends, and sends it to all on the link. -/
def Flood.Passed (link : ρ × ℤ → ρ × ℤ → Bool) (addr : ρ × ℤ → UInt32) (s : Flood ρ)
    (m : InFlight ρ) : Prop :=
  Stored (s.routers m.sender).db m.packet.lsu.rid m.packet.lsu.seq ∧
    ∀ b, link (m.sender, m.iface) b = true → s.Sent m.sender m.iface (addr b) m.packet.lsu

/-- What an entry was made of, and what the router has sent then. -/
structure Flood.Relayed (link : ρ × ℤ → ρ × ℤ → Bool) (addr : ρ × ℤ → UInt32) (s : Flood ρ)
    (v : ρ) (lsu : Lsu) : Prop where
  relayed : ∃ i, (∃ m ∈ s.flight, m.packet.lsu = lsu ∧ link (m.sender, m.iface) (v, i) = true) ∧
    ∀ j b, j ≠ i → link (v, j) b = true → s.Sent v j (addr b) lsu

structure Flood.Tracked (link : ρ × ℤ → ρ × ℤ → Bool) (addr : ρ × ℤ → UInt32) (ids : ρ → UInt32)
    (content : UInt32 → UInt16 → List MospfLsa) (s : Flood ρ) : Prop where
  routerId : ∀ v, (s.routers v).routerId = ids v
  covers : ∀ v, Covers link addr v (s.routers v)
  contents : ∀ m ∈ s.flight, m.packet.lsu.array = content m.packet.lsu.rid m.packet.lsu.seq
  sender : ∀ m ∈ s.flight, m.packet.lsu.rid = ids m.sender ∨ s.Passed link addr m
  entries : ∀ v rid seq array, entryOf (s.routers v).db rid = some (seq, array) →
    s.Relayed link addr v ⟨rid, seq, array⟩

theorem Flood.Fresh.tracked (h : s.Fresh link addr ids) : s.Tracked link addr ids content := by
  have hnone (m : InFlight ρ) (hm : m ∈ s.flight) : False := by
    rw [h.initial.1] at hm
    exact List.not_mem_nil hm
  refine ⟨h.routerId, h.covers, fun m hm => (hnone m hm).elim, fun m hm => (hnone m hm).elim, ?_⟩
  intro v rid seq array hentry
  rw [h.empty] at hentry
  cases hentry

theorem Flood.Sent.mono (hflight : s.flight ⊆ t.flight) {i : ℤ} {daddr : UInt32}
    (h : s.Sent v i daddr lsu) : t.Sent v i daddr lsu := by
  obtain ⟨m, hm, hsent⟩ := h
  exact ⟨m, hflight hm, hsent⟩

theorem Flood.Relayed.mono (hflight : s.flight ⊆ t.flight) (h : s.Relayed link addr v lsu) :
    t.Relayed link addr v lsu := by
  obtain ⟨i, ⟨m, hm, hfrom⟩, hall⟩ := h
  exact ⟨i, ⟨m, hflight hm, hfrom⟩, fun j b hj hb => (hall j b hj hb).mono hflight⟩

theorem Flood.Passed.mono (hflight : s.flight ⊆ t.flight) {m : InFlight ρ}
    (hstored : Stored (s.routers m.sender).db m.packet.lsu.rid m.packet.lsu.seq →
      Stored (t.routers m.sender).db m.packet.lsu.rid m.packet.lsu.seq)
    (h : s.Passed link addr m) : t.Passed link addr m :=
  ⟨hstored h.1, fun b hb => (h.2 b hb).mono hflight⟩

/-- The databases say what they said, and routers of the network are sent more. -/
theorem Flood.Tracked.congr (h : s.Tracked link addr ids content)
    (hid : ∀ v, (t.routers v).routerId = (s.routers v).routerId)
    (hcovers : ∀ v, Covers link addr v (t.routers v))
    (hentry : ∀ v rid, entryOf (t.routers v).db rid = entryOf (s.routers v).db rid)
    (hflight : ∀ m ∈ t.flight, m ∈ s.flight ∨ m.packet.lsu.rid = ids m.sender ∧
      m.packet.lsu.array = content m.packet.lsu.rid m.packet.lsu.seq)
    (hsub : s.flight ⊆ t.flight) : t.Tracked link addr ids content where
  routerId v := (hid v).trans (h.routerId v)
  covers := hcovers
  contents m hm := (hflight m hm).elim (h.contents m) fun hnew => hnew.2
  sender m hm := by
    rcases hflight m hm with hold | ⟨hown, -⟩
    · refine (h.sender m hold).imp_right (Flood.Passed.mono hsub fun hstored => ?_)
      rw [Stored, hentry]
      exact hstored
    · exact .inl hown
  entries v rid seq array hv := by
    rw [hentry] at hv
    exact (h.entries v rid seq array hv).mono hsub

/-- A router that covers its links relays to all routers on the others. -/
theorem exists_relay {r : Router} (h : Covers link addr v r) {i j : ℤ} {b : ρ × ℤ}
    (hb : link (v, j) b = true) (hne : j ≠ i) (packet : LsuPacket) :
    ∃ copy ∈ relay r.rtable r.ifaceList i packet,
      copy.1 = j ∧ copy.2.daddr = addr b ∧ copy.2.lsu = packet.lsu := by
  obtain ⟨ientry, hmem, rfl, hnum, ⟨nbr, hnbr, hip⟩, hroute⟩ := h.heard j b hb
  obtain ⟨entry, hentry⟩ := Option.ne_none_iff_exists'.mp hroute
  rw [← hip] at hentry
  exact ⟨_, mem_relay.mpr ⟨ientry, hmem, hne, hnum, nbr, hnbr, entry, hentry, rfl⟩,
    h.routed ientry hmem nbr hnbr entry hentry, hip, rfl⟩

/-- It relays nothing by the interface from which an LSU came. -/
theorem Covers.relay_ne {r : Router} (h : Covers link addr v r) {i : ℤ} {packet : LsuPacket}
    {copy : ℤ × LsuPacket} (hcopy : copy ∈ relay r.rtable r.ifaceList i packet) : copy.1 ≠ i := by
  obtain ⟨ientry, hmem, hne, -, nbr, hnbr, entry, hentry, rfl⟩ := mem_relay.mp hcopy
  rwa [← h.routed ientry hmem nbr hnbr entry hentry] at hne

variable [DecidableEq ρ]

theorem forall_update {P : ρ → Router → Prop} {f : ρ → Router} {r : Router} (hv : P v r)
    (h : ∀ u, P u (f u)) (u : ρ) : P u (Function.update f v r u) := by
  by_cases hu : u = v
  · rw [hu, Function.update_self]
    exact hv
  · rw [Function.update_of_ne hu]
    exact h u

theorem Stored.relayed {m : InFlight ρ} {i : ℤ} {db : List MospfDbEntry} {u : ρ} {rid : UInt32}
    {seq : UInt16} (hstore : storeLsu (s.routers v).db m.packet.lsu = some db)
    (h : Stored (s.routers u).db rid seq) :
    Stored ((s.relayed m v i db).routers u).db rid seq := by
  obtain ⟨stored, hentry, hle⟩ := h
  by_cases hu : u = v
  · subst hu
    rw [Stored, Flood.routers_relayed_self, entryOf_storeLsu hstore]
    split_ifs with hrid
    · refine ⟨_, rfl, UInt16.le_trans hle (UInt16.le_of_lt (newer_of_storeLsu hstore _ ?_))⟩
      rw [hrid]
      exact hentry
    · exact ⟨stored, hentry, hle⟩
  · rw [Stored, Flood.routers_relayed_of_ne _ _ hu]
    exact ⟨stored, hentry, hle⟩

theorem Flood.Tracked.relayed {m : InFlight ρ} {i : ℤ} {db : List MospfDbEntry}
    (h : s.Tracked link addr ids content) (hm : m ∈ s.flight)
    (hlink : link (m.sender, m.iface) (v, i) = true)
    (hstore : storeLsu (s.routers v).db m.packet.lsu = some db) :
    (s.relayed m v i db).Tracked link addr ids content := by
  have hsub : s.flight ⊆ (s.relayed m v i db).flight := List.subset_append_left _ _
  have hall (j : ℤ) (b : ρ × ℤ) (hj : j ≠ i) (hb : link (v, j) b = true) :
      (s.relayed m v i db).Sent v j (addr b) m.packet.lsu := by
    obtain ⟨copy, hin, hindex, hdaddr, hlsu⟩ := exists_relay (h.covers v) hb hj m.packet
    exact ⟨_, List.mem_append_right _ (List.mem_map_of_mem hin), rfl, hindex, hdaddr, hlsu⟩
  have hself : Stored ((s.relayed m v i db).routers v).db m.packet.lsu.rid m.packet.lsu.seq := by
    rw [Stored, Flood.routers_relayed_self, entryOf_storeLsu hstore, if_pos rfl]
    exact ⟨_, rfl, UInt16.le_refl _⟩
  have hcopy (m' : InFlight ρ) (hm' : m' ∈ (s.relayed m v i db).flight) : m' ∈ s.flight ∨
      m'.packet.lsu = m.packet.lsu ∧ (s.relayed m v i db).Passed link addr m' := by
    rcases List.mem_append.mp hm' with hold | hnew
    · exact .inl hold
    · obtain ⟨copy, hin, rfl⟩ := List.mem_map.mp hnew
      obtain ⟨hlsu, -⟩ := lsu_relay hin
      refine .inr ⟨hlsu, ?_, fun b hb => ?_⟩
      · simp only [hlsu]
        exact hself
      · simp only [hlsu]
        exact hall copy.1 b ((h.covers v).relay_ne hin) hb
  constructor
  · exact forall_update (P := fun u r => r.routerId = ids u) (h.routerId v) h.routerId
  · exact forall_update (P := fun u r => Covers link addr u r)
      ⟨(h.covers v).own, (h.covers v).heard, (h.covers v).routed⟩ h.covers
  · intro m' hm'
    rcases hcopy m' hm' with hold | ⟨hlsu, -⟩
    · exact h.contents m' hold
    · rw [hlsu]
      exact h.contents m hm
  · intro m' hm'
    rcases hcopy m' hm' with hold | ⟨-, hpassed⟩
    · exact (h.sender m' hold).imp_right (Flood.Passed.mono hsub (Stored.relayed hstore))
    · exact .inr hpassed
  · intro u rid seq array hentry
    by_cases hu : u = v
    · subst hu
      rw [Flood.routers_relayed_self, entryOf_storeLsu hstore] at hentry
      split_ifs at hentry with hrid
      · obtain ⟨rfl, rfl⟩ := Prod.mk.inj (Option.some.inj hentry)
        subst hrid
        exact ⟨i, ⟨m, hsub hm, rfl, hlink⟩, hall⟩
      · exact (h.entries u rid seq array hentry).mono hsub
    · rw [Flood.routers_relayed_of_ne _ _ hu] at hentry
      exact (h.entries u rid seq array hentry).mono hsub

theorem Flood.Tracked.step {e : FloodEvent ρ} (h : s.Tracked link addr ids content)
    (hok : Honest link addr content s e) (hstep : s.step link e = some t) :
    t.Tracked link addr ids content := by
  cases e with
  | inject v i packet =>
    obtain rfl := Option.some.inj hstep
    refine h.congr (fun _ => rfl) h.covers (fun _ _ => rfl) ?_ (List.subset_append_left _ _)
    intro m hm
    rcases List.mem_append.mp hm with hold | hnew
    · exact .inl hold
    · obtain rfl := List.mem_singleton.mp hnew
      exact .inr ⟨hok.1.trans (h.routerId v), hok.2⟩
  | deliver m v i =>
    have hlink : link (m.sender, m.iface) (v, i) = true := by
      by_contra hno
      rw [Flood.step, if_neg fun hboth => hno hboth.2] at hstep
      cases hstep
    obtain ⟨hm, ⟨haddr, -⟩ | rfl | ⟨-, db, -, hstore, rfl⟩⟩ := deliver_cases hstep
    · exact absurd hok haddr
    · exact h
    · exact h.relayed hm hlink hstore
  | database v db =>
    obtain rfl := Option.some.inj hstep
    refine h.congr ?_ ?_ ?_ (fun _ hm => .inl hm) fun _ => id
    · exact forall_update (P := fun u r => r.routerId = (s.routers u).routerId) rfl fun _ => rfl
    · exact forall_update (P := fun u r => Covers link addr u r)
        ⟨(h.covers v).own, (h.covers v).heard, (h.covers v).routed⟩ h.covers
    · exact forall_update (P := fun u r => ∀ rid, entryOf r.db rid = entryOf (s.routers u).db rid)
        (entryOf_congr hok) fun _ _ => rfl
  | neighbours | routes =>
    obtain rfl := Option.some.inj hstep
    refine h.congr ?_ ?_ ?_ (fun _ hm => .inl hm) fun _ => id
    · exact forall_update (P := fun u r => r.routerId = (s.routers u).routerId) rfl fun _ => rfl
    · exact forall_update (P := fun u r => Covers link addr u r) hok h.covers
    · exact forall_update (P := fun u r => ∀ rid, entryOf r.db rid = entryOf (s.routers u).db rid)
        (fun _ => rfl) fun _ _ => rfl

end Invariant

section Settled

theorem newer_iff {db : List MospfDbEntry} : Newer db lsu ↔ ¬ Stored db lsu.rid lsu.seq := by
  simp [Newer, Stored]

theorem handleMospfLsu_eq_none_iff {routerId : UInt32} {db : List MospfDbEntry} :
    handleMospfLsu routerId db lsu = none ↔
      lsu.rid = routerId ∨ Stored db lsu.rid lsu.seq := by
  rw [handleMospfLsu]
  by_cases hown : lsu.rid = routerId
  · simp [hown]
  · rw [if_neg hown, storeLsu_eq_none_iff, newer_iff]
    simp [hown]

theorem Flood.Settled.stored (h : s.Settled link) (ht : s.Tracked link addr ids content) {u : ρ}
    {i j : ℤ} (hsent : s.Sent u i (addr (v, j)) lsu) (hlink : link (u, i) (v, j) = true) :
    lsu.rid = ids v ∨ Stored (s.routers v).db lsu.rid lsu.seq := by
  obtain ⟨m, hm, rfl, rfl, hdaddr, rfl⟩ := hsent
  have haddr : (s.routers v).Addressed j m.packet.daddr := by
    rw [hdaddr]
    exact .inl ((ht.covers v).own _ j hlink)
  rw [← ht.routerId v]
  exact handleMospfLsu_eq_none_iff.mp (h m hm v j hlink haddr)

/-- On a link all hear what one sends. -/
def Shared (link : ρ × ℤ → ρ × ℤ → Bool) : Prop :=
  ∀ a b c, link a b = true → link b c = true → a = c ∨ link a c = true

/-- What a router has stored its neighbours have too, once it is announced. -/
theorem Flood.Settled.next (h : s.Settled link) (ht : s.Tracked link addr ids content)
    (hshared : Shared link) (hids : Function.Injective ids) {o : ρ}
    (hann : s.Announced link addr o lsu) {u : ρ} (hadj : Adjacent link u v)
    (hu : Stored (s.routers u).db lsu.rid lsu.seq) :
    lsu.rid = ids v ∨ Stored (s.routers v).db lsu.rid lsu.seq := by
  obtain ⟨i, j, hlink⟩ := hadj
  obtain ⟨stored, hentry, hle⟩ := hu
  have hgrow (hv : Stored (s.routers v).db lsu.rid stored.1) :
      Stored (s.routers v).db lsu.rid lsu.seq := by
    obtain ⟨stored', hentry', hle'⟩ := hv
    exact ⟨stored', hentry', UInt16.le_trans hle hle'⟩
  obtain ⟨⟨i₀, ⟨m, hm, hlsu, hback⟩, hall⟩⟩ := ht.entries u lsu.rid stored.1 stored.2 hentry
  by_cases hi : i = i₀
  · subst hi
    have hsender := ht.sender m hm
    rw [Flood.Passed, hlsu] at hsender
    rcases hshared (m.sender, m.iface) (u, i) (v, j) hback hlink with heq | hdirect
    · -- It has come from this neighbour.
      rw [(Prod.mk.inj heq).1] at hsender
      exact hsender.imp_right fun hpassed => hgrow hpassed.1
    · -- It has come from a router that both can hear.
      rcases hsender with horigin | ⟨-, hsent⟩
      · have ho : m.sender = o := hids (horigin.symm.trans (hann.1.trans (ht.routerId o)))
        rw [ho] at hdirect
        exact h.stored ht (hann.2 m.iface (v, j) hdirect) hdirect
      · exact (h.stored ht (hsent (v, j) hdirect) hdirect).imp_right hgrow
  · exact (h.stored ht (hall i (v, j) hi hlink) hlink).imp_right hgrow

theorem Flood.Tracked.synchronised (ht : s.Tracked link addr ids content) (hshared : Shared link)
    (hids : Function.Injective ids) (h : s.Settled link) {o : ρ}
    (hann : s.Announced link addr o lsu)
    (hnewest : ∀ m ∈ s.flight, m.packet.lsu.rid = lsu.rid → m.packet.lsu.seq ≤ lsu.seq)
    (hconn : Relation.ReflTransGen (Adjacent link) o v) (hne : v ≠ o) :
    entryOf (s.routers v).db lsu.rid = some (lsu.seq, lsu.array) := by
  have hrid : lsu.rid = ids o := hann.1.trans (ht.routerId o)
  have harray : lsu.array = content lsu.rid lsu.seq := by
    rcases hconn.cases_head with heq | ⟨u, ⟨i, j, hlink⟩, -⟩
    · exact absurd heq.symm hne
    · obtain ⟨m, hm, -, -, -, rfl⟩ := hann.2 i (u, j) hlink
      exact ht.contents m hm
  have hstored : v = o ∨ Stored (s.routers v).db lsu.rid lsu.seq := by
    clear hne
    induction hconn with
    | refl => exact .inl rfl
    | @tail u v _ hadj ih =>
      have hnext : lsu.rid = ids v ∨ Stored (s.routers v).db lsu.rid lsu.seq := by
        rcases ih with rfl | hu
        · obtain ⟨i, j, hlink⟩ := hadj
          exact h.stored ht (hann.2 i (v, j) hlink) hlink
        · exact h.next ht hshared hids hann hadj hu
      exact hnext.imp_left fun heq => hids (heq.symm.trans hrid)
  obtain ⟨stored, hentry, hle⟩ := hstored.resolve_left hne
  obtain ⟨⟨i, ⟨m, hm, hlsu, -⟩, -⟩⟩ := ht.entries v _ _ _ hentry
  have hseq : stored.1 ≤ lsu.seq := by
    have hmax := hnewest m hm
    rw [hlsu] at hmax
    exact hmax rfl
  have hcontent : stored.2 = content lsu.rid stored.1 := by
    have hmem := ht.contents m hm
    rwa [hlsu] at hmem
  have hsame : stored = (lsu.seq, lsu.array) :=
    Prod.ext (UInt16.le_antisymm hseq hle) (by
      rw [hcontent, UInt16.le_antisymm hseq hle, harray])
  rw [← hsame]
  exact hentry

theorem Flood.Tracked.of_reaches [DecidableEq ρ]
    (h : Reaches (Flood.step link) (Honest link addr content) (Flood.Fresh link addr ids) s) :
    s.Tracked link addr ids content :=
  h.invariant _ (fun _ hs => hs.tracked) fun _ _ _ hs hok hstep => hs.step hok hstep

/-- When flooding has ended, every router has the newest LSU of every other router that it is
connected to. -/
theorem lsdb_synchronised [DecidableEq ρ] (hshared : Shared link) (hids : Function.Injective ids)
    (h : Reaches (Flood.step link) (Honest link addr content) (Flood.Fresh link addr ids) s)
    (hsettled : s.Settled link) {o : ρ} (hann : s.Announced link addr o lsu)
    (hnewest : ∀ m ∈ s.flight, m.packet.lsu.rid = lsu.rid → m.packet.lsu.seq ≤ lsu.seq)
    (hconn : Relation.ReflTransGen (Adjacent link) o v) (hne : v ≠ o) :
    entryOf (s.routers v).db lsu.rid = some (lsu.seq, lsu.array) :=
  (Flood.Tracked.of_reaches h).synchronised hshared hids hsettled hann hnewest hconn hne

end Settled

section Ending

variable [DecidableEq ρ] [Fintype ρ]

/-- Nothing but deliveries to the routers that the copies are addressed to. -/
def deliveries (s : Flood ρ) : FloodEvent ρ → Prop
  | .deliver m v iface => (s.routers v).Addressed iface m.packet.daddr
  | .inject _ _ _ | .database _ _ | .neighbours _ _ | .routes _ _ => False

instance (s : Flood ρ) : (e : FloodEvent ρ) → Decidable (deliveries s e)
  | .deliver m v iface => inferInstanceAs (Decidable ((s.routers v).Addressed iface m.packet.daddr))
  | .inject _ _ _ | .database _ _ | .neighbours _ _ | .routes _ _ => isFalse id

/-- The LSUs that are on their way. -/
def Flood.lsus (s : Flood ρ) : Finset Lsu := (s.flight.map fun m => m.packet.lsu).toFinset

/-- The routers that would store an LSU. -/
def Flood.unstored (s : Flood ρ) : Finset (ρ × Lsu) :=
  (Finset.univ ×ˢ s.lsus).filter fun p =>
    handleMospfLsu (s.routers p.1).routerId (s.routers p.1).db p.2 ≠ none

omit [DecidableEq ρ] in
theorem Flood.mem_unstored {p : ρ × Lsu} : p ∈ s.unstored ↔ p.2 ∈ s.lsus ∧
    ¬ (p.2.rid = (s.routers p.1).routerId ∨ Stored (s.routers p.1).db p.2.rid p.2.seq) := by
  simp only [Flood.unstored, Finset.mem_filter, Finset.mem_product, Finset.mem_univ, true_and,
    ne_eq, handleMospfLsu_eq_none_iff]

omit [Fintype ρ] in
theorem Flood.lsus_relayed {m : InFlight ρ} {i : ℤ} {db : List MospfDbEntry} (hm : m ∈ s.flight) :
    (s.relayed m v i db).lsus = s.lsus := by
  ext l
  simp only [Flood.lsus, List.mem_toFinset, List.mem_map]
  constructor
  · rintro ⟨m', hm', rfl⟩
    rcases List.mem_append.mp hm' with hold | hnew
    · exact ⟨m', hold, rfl⟩
    · obtain ⟨copy, hin, rfl⟩ := List.mem_map.mp hnew
      exact ⟨m, hm, (lsu_relay hin).1.symm⟩
  · rintro ⟨m', hm', rfl⟩
    exact ⟨m', List.mem_append_left _ hm', rfl⟩

/-- A router that has stored an LSU does not store it again. -/
theorem Flood.card_unstored_relayed {m : InFlight ρ} {i : ℤ} {db : List MospfDbEntry}
    (hm : m ∈ s.flight) (hown : m.packet.lsu.rid ≠ (s.routers v).routerId)
    (hstore : storeLsu (s.routers v).db m.packet.lsu = some db) :
    (s.relayed m v i db).unstored.card < s.unstored.card := by
  have hid : ∀ u, ((s.relayed m v i db).routers u).routerId = (s.routers u).routerId :=
    forall_update (P := fun u r => r.routerId = (s.routers u).routerId) rfl fun _ => rfl
  have hself : Stored ((s.relayed m v i db).routers v).db m.packet.lsu.rid m.packet.lsu.seq := by
    rw [Stored, Flood.routers_relayed_self, entryOf_storeLsu hstore, if_pos rfl]
    exact ⟨_, rfl, UInt16.le_refl _⟩
  refine Finset.card_lt_card ((Finset.ssubset_iff_of_subset fun p hp => ?_).mpr
    ⟨(v, m.packet.lsu), Flood.mem_unstored.mpr ⟨?_, ?_⟩, fun hin => ?_⟩)
  · rw [Flood.mem_unstored, Flood.lsus_relayed hm, hid] at hp
    exact Flood.mem_unstored.mpr ⟨hp.1, fun hold =>
      hp.2 (hold.imp_right fun hs => hs.relayed hstore)⟩
  · exact List.mem_toFinset.mpr (List.mem_map_of_mem hm)
  · rintro (heq | hold)
    · exact hown heq
    · exact newer_iff.mp (newer_of_storeLsu hstore) hold
  · exact (Flood.mem_unstored.mp hin).2 (.inr hself)

/-- Where not all is settled, there is a delivery that is stored. -/
theorem Flood.exists_delivery (h : ¬ s.Settled link) : ∃ e t, deliveries s e ∧
    s.step link e = some t ∧ t.unstored.card < s.unstored.card := by
  simp only [Flood.Settled, not_forall] at h
  obtain ⟨m, hm, v, i, hlink, haddr, hnone⟩ := h
  obtain ⟨db, hhandle⟩ := Option.ne_none_iff_exists'.mp hnone
  have hown : m.packet.lsu.rid ≠ (s.routers v).routerId := fun heq => by
    rw [handleMospfLsu, if_pos heq] at hhandle
    cases hhandle
  have hstore : storeLsu (s.routers v).db m.packet.lsu = some db := by
    rwa [handleMospfLsu, if_neg hown] at hhandle
  refine ⟨.deliver m v i, s.relayed m v i db, haddr, ?_, Flood.card_unstored_relayed hm hown hstore⟩
  rw [Flood.step, if_pos ⟨hm, hlink⟩, if_pos haddr, hhandle]
  rfl

theorem Flood.exists_settled (s : Flood ρ) : ∃ es t, es.length ≤ s.unstored.card ∧
    exec (Flood.step link) deliveries s es = some t ∧ t.Settled link := by
  generalize hn : s.unstored.card = n
  induction n using Nat.strong_induction_on generalizing s with
  | _ n ih =>
    by_cases hsettled : s.Settled link
    · exact ⟨[], s, Nat.zero_le _, rfl, hsettled⟩
    · obtain ⟨e, t, hok, hstep, hlt⟩ := Flood.exists_delivery hsettled
      obtain ⟨es, t', hlen, hexec, hend⟩ := ih _ (hn ▸ hlt) t rfl
      refine ⟨e :: es, t', ?_, ?_, hend⟩
      · rw [List.length_cons]
        omega
      · rw [exec, if_pos hok, hstep]
        exact hexec

omit [DecidableEq ρ] in
theorem Flood.card_unstored_le (s : Flood ρ) : s.unstored.card ≤ Fintype.card ρ * s.lsus.card := by
  rw [← Finset.card_univ, ← Finset.card_product]
  exact Finset.card_filter_le _ _

omit [Fintype ρ] in
/-- Deliveries add copies of the same LSUs. -/
theorem Flood.delivered (h : Reaches (Flood.step link) deliveries (fun x => x = s) t) :
    s.flight ⊆ t.flight ∧ t.lsus = s.lsus ∧
      ∀ v, (t.routers v).routerId = (s.routers v).routerId := by
  refine h.invariant (fun x => s.flight ⊆ x.flight ∧ x.lsus = s.lsus ∧
    ∀ v, (x.routers v).routerId = (s.routers v).routerId) ?_ fun x e y hx hok hstep => ?_
  · rintro x rfl
    exact ⟨fun _ => id, rfl, fun _ => rfl⟩
  · cases e with
    | deliver m v i =>
      obtain ⟨hm, ⟨haddr, -⟩ | rfl | ⟨-, db, -, -, rfl⟩⟩ := deliver_cases hstep
      · exact absurd hok haddr
      · exact hx
      · refine ⟨fun m' hm' => List.mem_append_left _ (hx.1 hm'),
          (Flood.lsus_relayed hm).trans hx.2.1, ?_⟩
        exact forall_update (P := fun u r => r.routerId = (s.routers u).routerId) (hx.2.2 v) hx.2.2
    | inject | database | neighbours | routes => exact absurd hok not_false

/-- From every state of a run deliveries alone, not more than routers times LSUs, lead to a state
in which every router has the newest LSU of every other router that it is connected to. -/
theorem flooding_converges (hshared : Shared link) (hids : Function.Injective ids)
    (h : Reaches (Flood.step link) (Honest link addr content) (Flood.Fresh link addr ids) s) :
    ∃ es t, es.length ≤ Fintype.card ρ * s.lsus.card ∧
      exec (Flood.step link) deliveries s es = some t ∧
      ∀ o lsu, s.Announced link addr o lsu →
        (∀ m ∈ s.flight, m.packet.lsu.rid = lsu.rid → m.packet.lsu.seq ≤ lsu.seq) →
        ∀ v, Relation.ReflTransGen (Adjacent link) o v → v ≠ o →
          entryOf (t.routers v).db lsu.rid = some (lsu.seq, lsu.array) := by
  obtain ⟨es, t, hlen, hexec, hsettled⟩ := @Flood.exists_settled ρ link _ _ s
  have hrun : Reaches (Flood.step link) deliveries (fun x => x = s) t :=
    .of_exec (.start rfl) hexec
  have hhonest : Reaches (Flood.step link) (Honest link addr content)
      (Flood.Fresh link addr ids) t := by
    refine h.trans (hrun.weaken fun x e hok => ?_)
    cases e with
    | deliver => exact hok
    | inject | database | neighbours | routes => exact absurd hok not_false
  obtain ⟨hsub, hlsus, hid⟩ := Flood.delivered hrun
  refine ⟨es, t, hlen.trans (Flood.card_unstored_le s), hexec, fun o lsu hann hnewest v => ?_⟩
  refine (Flood.Tracked.of_reaches hhonest).synchronised hshared hids hsettled
    ⟨hann.1.trans (hid o).symm, fun i b hb => (hann.2 i b hb).mono hsub⟩ fun m hm => ?_
  have hmem : m.packet.lsu ∈ s.lsus :=
    hlsus ▸ List.mem_toFinset.mpr (List.mem_map_of_mem hm)
  obtain ⟨m', hm', hlsu⟩ := List.mem_map.mp (List.mem_toFinset.mp hmem)
  rw [← hlsu]
  exact hnewest m' hm'

end Ending

section Instance

/-- The routers of `topo.py`. -/
inductive TopoRouter
  | r1 | r2 | r3 | r4
  deriving DecidableEq

instance : Fintype TopoRouter := ⟨{.r1, .r2, .r3, .r4}, fun v => by cases v <;> decide⟩

/-- The ends of the links in both directions. -/
def wires : List ((TopoRouter × ℤ) × (TopoRouter × ℤ)) :=
  [((.r1, 1), (.r2, 0)), ((.r2, 0), (.r1, 1)), ((.r1, 2), (.r3, 0)), ((.r3, 0), (.r1, 2)),
    ((.r2, 1), (.r4, 0)), ((.r4, 0), (.r2, 1)), ((.r3, 1), (.r4, 1)), ((.r4, 1), (.r3, 1))]

def wired (a b : TopoRouter × ℤ) : Bool := decide ((a, b) ∈ wires)

def TopoRouter.id : TopoRouter → UInt32
  | .r1 => 1
  | .r2 => 2
  | .r3 => 3
  | .r4 => 4

/-- The interfaces, with the third bytes of their subnets. -/
def TopoRouter.nets : TopoRouter → List (ℤ × UInt32)
  | .r1 => [(0, 1), (1, 2), (2, 3)]
  | .r2 => [(0, 2), (1, 4)]
  | .r3 => [(0, 3), (1, 5)]
  | .r4 => [(0, 4), (1, 5), (2, 6)]

/-- 10.0.3.1 for the first router in the third subnet. -/
def topoAddr (a : TopoRouter × ℤ) : UInt32 :=
  0x0a000000 + 256 * (a.1.nets.lookup a.2).getD 0 + a.1.id

def TopoRouter.ifaces (v : TopoRouter) : List Iface :=
  v.nets.map fun net =>
    match wires.find? fun w => decide (w.1 = (v, net.1)) with
    | some w =>
      ⟨net.1, topoAddr (v, net.1), 0xffffff00, 1, [⟨w.2.1.id, topoAddr w.2, 0xffffff00⟩]⟩
    | none => ⟨net.1, topoAddr (v, net.1), 0xffffff00, 0, []⟩

/-- The routes of the kernel. -/
def TopoRouter.rtable (v : TopoRouter) : List (RtEntry ℤ) :=
  v.nets.map fun net => ⟨0x0a000000 + 256 * net.2, 0xffffff00, 0, net.1⟩

def topo : Flood TopoRouter := ⟨fun v => ⟨v.id, [], v.ifaces, v.rtable⟩, [], []⟩

theorem TopoRouter.id_injective : Function.Injective TopoRouter.id := by decide

theorem shared_wired : Shared wired := by
  have hone : ∀ p ∈ wires, ∀ q ∈ wires, p.2 = q.1 → p.1 = q.2 := by decide
  exact fun a b c hab hbc => .inl
    (hone (a, b) (of_decide_eq_true hab) (b, c) (of_decide_eq_true hbc) rfl)

theorem covers_topo (v : TopoRouter) : Covers wired topoAddr v (topo.routers v) := by
  have hown : ∀ w ∈ wires, ∃ ientry ∈ w.2.1.ifaces,
      ientry.index = w.2.2 ∧ ientry.ip = topoAddr w.2 := by decide
  have hheard : ∀ w ∈ wires, ∃ ientry ∈ w.1.1.ifaces, ientry.index = w.1.2 ∧ ientry.numNbr ≠ 0 ∧
      (∃ nbr ∈ ientry.nbrList, nbr.nbrIp = topoAddr w.2) ∧
        (longestPrefixMatch w.1.1.rtable (topoAddr w.2)).isSome = true := by decide
  have hrouted : ∀ v : TopoRouter, ∀ ientry ∈ v.ifaces, ∀ nbr ∈ ientry.nbrList,
      ((longestPrefixMatch v.rtable nbr.nbrIp).all fun entry => entry.iface = ientry.index) =
        true := by decide
  refine ⟨fun a i h => hown (a, (v, i)) (of_decide_eq_true h), fun i b h => ?_,
    fun ientry hmem nbr hnbr entry hentry => ?_⟩
  · obtain ⟨ientry, hmem, hindex, hnum, hnbr, hroute⟩ := hheard ((v, i), b) (of_decide_eq_true h)
    exact ⟨ientry, hmem, hindex, hnum, hnbr, Option.isSome_iff_ne_none.mp hroute⟩
  · have hall := hrouted v ientry hmem nbr hnbr
    have hmatch : longestPrefixMatch v.rtable nbr.nbrIp = some entry := hentry
    rw [hmatch] at hall
    exact of_decide_eq_true hall

theorem fresh_topo : topo.Fresh wired topoAddr TopoRouter.id :=
  ⟨⟨rfl, rfl⟩, fun _ => rfl, fun _ => rfl, covers_topo⟩

/-- An LSU of the first router, from one end of a link to the other. -/
def newsOf (ttl : UInt8) (a b : TopoRouter × ℤ) : LsuPacket :=
  ⟨⟨1, 0, []⟩, ttl, topoAddr a, topoAddr b⟩

/-- The first router sends its LSU to both sides. -/
def announced : List (FloodEvent TopoRouter) :=
  [.inject .r1 1 (newsOf 64 (.r1, 1) (.r2, 0)), .inject .r1 2 (newsOf 64 (.r1, 2) (.r3, 0))]

/-- It goes round on one side; the copies on the other side are not newer then. -/
def flooded : List (FloodEvent TopoRouter) :=
  announced ++ [.deliver ⟨.r1, 1, newsOf 64 (.r1, 1) (.r2, 0), 64, 0⟩ .r2 0,
    .deliver ⟨.r2, 1, newsOf 63 (.r2, 1) (.r4, 0), 64, 1⟩ .r4 0,
    .deliver ⟨.r4, 1, newsOf 62 (.r4, 1) (.r3, 1), 64, 2⟩ .r3 1,
    .deliver ⟨.r1, 2, newsOf 64 (.r1, 2) (.r3, 0), 64, 0⟩ .r3 0]

/-- Own LSUs without content, and deliveries. -/
def Plain (s : Flood TopoRouter) : FloodEvent TopoRouter → Prop
  | .inject v _ packet => packet.lsu.rid = (s.routers v).routerId ∧ packet.lsu.array.length = 0
  | .deliver m v iface => (s.routers v).Addressed iface m.packet.daddr
  | .database _ _ | .neighbours _ _ | .routes _ _ => False

instance (s : Flood TopoRouter) : (e : FloodEvent TopoRouter) → Decidable (Plain s e)
  | .inject _ _ _ => inferInstanceAs (Decidable (_ ∧ _))
  | .deliver m v iface => inferInstanceAs (Decidable ((s.routers v).Addressed iface m.packet.daddr))
  | .database _ _ | .neighbours _ _ | .routes _ _ => isFalse id

theorem Plain.honest {s : Flood TopoRouter} {e : FloodEvent TopoRouter} (h : Plain s e) :
    Honest wired topoAddr (fun _ _ => []) s e := by
  cases e with
  | inject v i packet => exact ⟨h.1, List.eq_nil_of_length_eq_zero h.2⟩
  | deliver => exact h
  | database | neighbours | routes => exact absurd h not_false

/-- All copies are of one LSU, and the first router has sent it to both sides. -/
def OneLsu (s : Flood TopoRouter) : Prop :=
  (∀ m ∈ s.flight, m.packet.lsu = ⟨1, 0, []⟩) ∧ (s.routers .r1).routerId = 1 ∧
    ∀ w ∈ wires, w.1.1 = .r1 → ∃ m ∈ s.flight,
      m.sender = .r1 ∧ m.iface = w.1.2 ∧ m.packet.daddr = topoAddr w.2

instance (s : Flood TopoRouter) : Decidable (OneLsu s) :=
  inferInstanceAs (Decidable ((∀ _ ∈ _, _) ∧ _ ∧ ∀ _ ∈ _, _ → ∃ _ ∈ _, _))

theorem OneLsu.announced {s : Flood TopoRouter} (h : OneLsu s) :
    s.Announced wired topoAddr .r1 ⟨1, 0, []⟩ := by
  refine ⟨h.2.1.symm, fun i b hb => ?_⟩
  obtain ⟨m, hm, hsender, hiface, hdaddr⟩ := h.2.2 ((.r1, i), b) (of_decide_eq_true hb) rfl
  exact ⟨m, hm, hsender, hiface, hdaddr, h.1 m hm⟩

theorem OneLsu.newest {s : Flood TopoRouter} (h : OneLsu s) (m : InFlight TopoRouter)
    (hm : m ∈ s.flight) : m.packet.lsu.seq ≤ 0 := by
  rw [h.1 m hm]
  exact UInt16.le_refl 0

theorem reaches_r4 : Relation.ReflTransGen (Adjacent wired) .r1 .r4 := by
  have hfirst : Adjacent wired .r1 .r2 := ⟨1, 0, by decide⟩
  exact .tail (.single hfirst) ⟨1, 0, by decide⟩

/-- No copy would be stored. -/
def Quiet (s : Flood TopoRouter) : Prop :=
  ∀ m ∈ s.flight, ∀ w ∈ wires, w.1 = (m.sender, m.iface) → (handleMospfLsu
    (s.routers w.2.1).routerId (s.routers w.2.1).db m.packet.lsu).isNone = true

instance (s : Flood TopoRouter) : Decidable (Quiet s) :=
  inferInstanceAs (Decidable (∀ _ ∈ _, ∀ _ ∈ _, _ → _))

theorem Quiet.settled {s : Flood TopoRouter} (h : Quiet s) : s.Settled wired :=
  fun m hm v i hlink _ => Option.isNone_iff_eq_none.mp
    (h m hm ((m.sender, m.iface), (v, i)) (of_decide_eq_true hlink) rfl)

theorem lsdb_synchronised_topo : ∃ s : Flood TopoRouter,
    s.relays.length = 3 ∧ entryOf (s.routers .r4).db 1 = some (0, []) := by
  obtain ⟨s, hs, hone, hquiet, hrelays⟩ : ∃ s, Reaches (Flood.step wired) Plain
      (fun s => s = topo) s ∧ OneLsu s ∧ Quiet s ∧ s.relays.length = 3 :=
    exists_of_exec_from topo flooded _ (by decide +kernel)
  have hreach : Reaches (Flood.step wired) (Honest wired topoAddr fun _ _ => [])
      (Flood.Fresh wired topoAddr TopoRouter.id) s :=
    (Reaches.start fresh_topo).trans (hs.weaken fun _ _ => Plain.honest)
  exact ⟨s, hrelays, lsdb_synchronised shared_wired TopoRouter.id_injective hreach hquiet.settled
    hone.announced (fun m hm _ => hone.newest m hm) reaches_r4 (by decide)⟩

theorem flooding_converges_topo : ∃ t : Flood TopoRouter,
    entryOf (t.routers .r4).db 1 = some (0, []) := by
  obtain ⟨s, hs, hone⟩ : ∃ s, Reaches (Flood.step wired) Plain (fun s => s = topo) s ∧ OneLsu s :=
    exists_of_exec_from topo announced _ (by decide +kernel)
  have hreach : Reaches (Flood.step wired) (Honest wired topoAddr fun _ _ => [])
      (Flood.Fresh wired topoAddr TopoRouter.id) s :=
    (Reaches.start fresh_topo).trans (hs.weaken fun _ _ => Plain.honest)
  obtain ⟨es, t, -, -, hall⟩ :=
    flooding_converges shared_wired TopoRouter.id_injective hreach
  exact ⟨t, hall .r1 _ hone.announced (fun m hm _ => hone.newest m hm) .r4 reaches_r4 (by decide)⟩

end Instance

end NetworkLab.Mospf
