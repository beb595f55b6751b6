import NetworkLab.GuardedRuns
import NetworkLab.TableContents

/-!
# Local ports

A socket that is bound has its port for itself: `tcp_sock_set_sport` takes a port that no socket
of the bind table has, the one that is asked for or the first that is free.
-/
namespace NetworkLab.Tcp
open LinkedLists GuardedRuns Tables

section Ports

/-- `tcp_sock_set_sport` with the value that it returns. -/
def Tables.tcpSockSetSport (s : Tables) (i : ℕ) (port : UInt16) : Option (ℤ × Tables) := do
  let e ← s.get i
  match ← s.choosePort port with
  | none => some (-1, s)
  | some port => ((s.set i { e with tsk.skSport := port }).tcpBindHash i).map fun t => (0, t)

theorem tcpSockBind_eq_setSport (s : Tables) (i : ℕ) (port : UInt16) :
    s.tcpSockBind i port = (s.tcpSockSetSport i port).map Prod.snd := by
  unfold tcpSockBind tcpSockSetSport
  cases s.get i with
  | none => rfl
  | some e =>
    simp only [Option.bind_eq_bind, Option.bind_some]
    cases s.choosePort port with
    | none => rfl
    | some r =>
      cases r with
      | none => rfl
      | some port => simp [Function.comp_def]

/-- The tables with what has been bound: the sockets that are in the bind table, and those that
have been taken out of it. -/
structure Ports where
  tables : Tables
  bound : Finset ℕ
  released : Finset ℕ

/-- `change` is everything else that writes to a socket. -/
inductive PortEvent
  | alloc (tsk : TcpSock)
  | change (i : ℕ) (tsk : TcpSock)
  | setSport (i : ℕ) (port : UInt16)
  | bindUnhash (i : ℕ)

namespace Ports

def init : Ports := ⟨initTcpStack, ∅, ∅⟩

/-- The sockets that have been given a port at some time. -/
def assigned (d : Ports) : Finset ℕ := d.bound ∪ d.released

def step (d : Ports) : PortEvent → Option Ports
  | .alloc tsk => (d.tables.alloc tsk).map fun t => { d with tables := t }
  | .change i tsk =>
    (d.tables.get i).map fun e => { d with tables := d.tables.set i { e with tsk := tsk } }
  | .setSport i port => do
    let (code, t) ← d.tables.tcpSockSetSport i port
    if code < 0 then some { d with tables := t }
    else some { d with tables := t, bound := insert i d.bound }
  | .bindUnhash i => (d.tables.tcpBindUnhash i).map fun t =>
    { tables := t, bound := d.bound.erase i, released := insert i d.released }

/-- A socket is given a port once, and keeps it while it is bound; it is taken out when it is
bound. -/
def Once (d : Ports) : PortEvent → Prop
  | .alloc _ => True
  | .change i tsk => ∀ e ∈ d.tables.get i, i ∈ d.bound → tsk.skSport = e.tsk.skSport
  | .setSport i port =>
    i ∈ d.assigned → ∀ r ∈ d.tables.tcpSockSetSport i port, r.1 < 0
  | .bindUnhash i => i ∈ d.bound

instance (d : Ports) (ev : PortEvent) : Decidable (d.Once ev) := by
  cases ev <;> unfold Once <;> infer_instance

/-- A bound socket has the port. -/
def Used (d : Ports) (port : UInt16) : Prop :=
  ∃ i ∈ d.bound, ∃ e, d.tables.get i = some e ∧ e.tsk.skSport = port

/-- There is no port to be had. -/
def Exhausted (d : Ports) (port : UInt16) : Prop :=
  port ≠ 0 ∧ d.Used port ∨ port = 0 ∧ ∀ p, portMin ≤ p → p < portMax → d.Used p

/-- The port is free and is the one that is asked for. -/
def Suits (d : Ports) (port p : UInt16) : Prop :=
  ¬d.Used p ∧ (port ≠ 0 → p = port) ∧ (port = 0 → portMin ≤ p ∧ p < portMax)

/-- What `tcp_sock_set_sport` returns, and what it does to the socket. -/
def SetsRight (d : Ports) (i : ℕ) (port : UInt16) : Prop :=
  ∃ code t, d.tables.tcpSockSetSport i port = some (code, t) ∧
    (code = -1 ∧ d.Exhausted port ∧ t = d.tables ∨
      code = 0 ∧ ¬d.Exhausted port ∧ ∃ p e, d.Suits port p ∧ t.get i = some e ∧
        e.tsk.skSport = p)

end Ports

end Ports

section Invariant

open Ports

/-- The bind table holds the sockets that are bound, which have different ports. The links of a
socket that has not been bound are null. -/
structure PortFiling (d : Ports) (L : ListName → List ListNode) : Prop where
  books : Books 0 d.tables L
  bound : Filed d.tables.tsks L .bind .bindHashList portHash d.bound
  distinct : ∀ i ∈ d.bound, ∀ j ∈ d.bound, ∀ tsk tsk', d.tables.tsks[i]? = some tsk →
    d.tables.tsks[j]? = some tsk' → tsk.skSport = tsk'.skSport → i = j
  null : ∀ i ∉ d.assigned, d.tables.links.next (.bindHashList i) = none

variable {d d' : Ports} {t : Tables} {L : ListName → List ListNode} {i : ℕ} {e : SockEntry}
  {tsk : TcpSock} {port : UInt16}

theorem portFiling_init : PortFiling init fun _ => [] where
  books := books_init
  bound := ⟨fun _ hi => absurd hi (Finset.notMem_empty _), fun _ _ => by simp [init]⟩
  distinct _ hi := absurd hi (Finset.notMem_empty _)
  null _ _ := rfl

namespace PortFiling

theorem not_listed (h : PortFiling d L) (hi : i ∉ d.assigned) : ¬Listed L (.bindHashList i) :=
  fun hx => h.books.lists.next_ne_none hx (h.null i hi)

theorem bucket (h : PortFiling d L) (b : UInt8) :
    ∃ es, d.tables.bucket (.bind b) = some es ∧ (es.map Prod.fst).Nodup ∧
      ∀ p, p ∈ es ↔ p.1 ∈ d.bound ∧ d.tables.get p.1 = some p.2 ∧ portHash p.2.tsk = b :=
  h.bound.bucket h.books bindHashList_injective fun _ => rfl

theorem portInUse (h : PortFiling d L) (port : UInt16) :
    ∃ used, d.tables.tcpPortInUse port = some used ∧ (used = true ↔ d.Used port) := by
  obtain ⟨es, hes, -, hmem⟩ := h.bucket (tcpHashFunction 0 0 port 0)
  refine ⟨_, by rw [tcpPortInUse, hes, Option.map_some], ?_⟩
  rw [List.any_eq_true]
  constructor
  · rintro ⟨p, hp, hport⟩
    obtain ⟨hbound, hget, -⟩ := (hmem p).mp hp
    exact ⟨p.1, hbound, p.2, hget, of_decide_eq_true hport⟩
  · rintro ⟨j, hj, e', he', hport⟩
    exact ⟨(j, e'), (hmem _).mpr ⟨hj, he', by rw [portHash, hport]⟩, decide_eq_true hport⟩

/-- The loop of `tcp_get_port` finds a free port of those that are left, if there is one. -/
theorem getPortFrom (h : PortFiling d L) (n : ℕ) (port : UInt16)
    (hfits : port.toNat + n < 65536) (hpos : port ≠ 0) :
    ((∀ p : UInt16, port ≤ p → p.toNat < port.toNat + n → d.Used p) ∧
      d.tables.getPortFrom n port = some 0) ∨
    ∃ p, d.tables.getPortFrom n port = some p ∧ ¬d.Used p ∧ port ≤ p ∧
      p.toNat < port.toNat + n := by
  induction n generalizing port with
  | zero =>
    refine .inl ⟨fun p hle hlt => ?_, rfl⟩
    rw [UInt16.le_iff_toNat_le] at hle
    omega
  | succ n ih =>
    obtain ⟨used, hused, hiff⟩ := h.portInUse port
    rw [Tables.getPortFrom, hused]
    simp only [Option.bind_eq_bind, Option.bind_some]
    cases used with
    | false =>
      refine .inr ⟨port, rfl, fun hmem => Bool.false_ne_true (hiff.mpr hmem),
        UInt16.le_refl port, ?_⟩
      omega
    | true =>
      have hnext : (port + 1).toNat = port.toNat + 1 := by
        rw [UInt16.toNat_add, UInt16.toNat_one]
        exact Nat.mod_eq_of_lt (by omega)
      have hne : port + 1 ≠ 0 := fun hzero => by
        rw [hzero] at hnext
        exact absurd hnext (Nat.succ_ne_zero _).symm
      rw [if_pos rfl]
      rcases ih (port + 1) (by omega) hne with ⟨hall, hnone⟩ | ⟨p, hp, hfree, hle, hlt⟩
      · refine .inl ⟨fun p hle hlt => ?_, hnone⟩
        by_cases heq : p = port
        · exact heq ▸ hiff.mp rfl
        · rw [UInt16.le_iff_toNat_le] at hle
          have hdiff : p.toNat ≠ port.toNat := fun hsame => heq (UInt16.toNat_inj.mp hsame)
          exact hall p (UInt16.le_iff_toNat_le.mpr (by omega)) (by omega)
      · rw [UInt16.le_iff_toNat_le] at hle
        exact .inr ⟨p, hp, hfree, UInt16.le_iff_toNat_le.mpr (by omega), by omega⟩

/-- `tcp_sock_set_sport` takes a port exactly if there is one to be had. -/
theorem choosePort (h : PortFiling d L) (port : UInt16) :
    d.Exhausted port ∧ d.tables.choosePort port = some none ∨
      ¬d.Exhausted port ∧ ∃ p, d.tables.choosePort port = some (some p) ∧ d.Suits port p := by
  by_cases hport : port = 0
  · subst hport
    rw [Tables.choosePort, if_neg (not_not.mpr rfl), tcpGetPort]
    have hlast (p : UInt16) :
        p.toNat < portMin.toNat + (portMax.toNat - portMin.toNat) ↔ p < portMax := by
      rw [UInt16.lt_iff_toNat_lt]
      exact Iff.rfl
    rcases h.getPortFrom (portMax.toNat - portMin.toNat) portMin (by decide)
      (by decide) with ⟨hall, hnone⟩ | ⟨p, hp, hfree, hle, hlt⟩
    · refine .inl ⟨.inr ⟨rfl, fun p hle hlt => hall p hle ((hlast p).mpr hlt)⟩, ?_⟩
      rw [hnone]
      rfl
    · have hlt := (hlast p).mp hlt
      have hpos : p ≠ 0 := by
        rintro rfl
        exact absurd hle (by decide)
      refine .inr ⟨?_, p, by rw [hp, Option.map_some, if_neg hpos], hfree,
        fun hne => absurd rfl hne, fun _ => ⟨hle, hlt⟩⟩
      rintro (⟨hne, -⟩ | ⟨-, hall⟩)
      · exact hne rfl
      · exact hfree (hall p hle hlt)
  · obtain ⟨used, hused, hiff⟩ := h.portInUse port
    rw [Tables.choosePort, if_pos hport, hused, Option.map_some]
    cases used with
    | true => exact .inl ⟨.inl ⟨hport, hiff.mp rfl⟩, rfl⟩
    | false =>
      have hfree : ¬d.Used port := fun hmem => Bool.false_ne_true (hiff.mpr hmem)
      refine .inr ⟨?_, port, rfl, hfree, fun _ => rfl, fun hzero => absurd hzero hport⟩
      rintro (⟨-, hmem⟩ | ⟨hzero, -⟩)
      · exact hfree hmem
      · exact hport hzero

/-- A call fails, or the socket gets a port and is put first in its list. -/
theorem tcpSockSetSport (h : PortFiling d L) (he : d.tables.get i = some e) (port : UInt16) :
    d.Exhausted port ∧ d.tables.tcpSockSetSport i port = some (-1, d.tables) ∨
      ¬d.Exhausted port ∧ ∃ p links, d.Suits port p ∧
        d.tables.links.addHead (.bindHashList i) (.head (.bind (tcpHashFunction 0 0 p 0))) =
          some links ∧
        d.tables.tcpSockSetSport i port =
          some (0, (d.tables.set i { e with tsk.skSport := p }).refer i
            { e with tsk.skSport := p } links) := by
  rcases h.choosePort port with ⟨hnone, hchoose⟩ | ⟨hsome, p, hchoose, hsuits⟩
  · refine .inl ⟨hnone, ?_⟩
    simp [Tables.tcpSockSetSport, he, hchoose]
  · obtain ⟨links, hlinks⟩ :=
      h.books.lists.addHead_defined (.bind (tcpHashFunction 0 0 p 0)) (.bindHashList i)
    refine .inr ⟨hsome, p, links, hsuits, hlinks, ?_⟩
    have hlive := (get_eq_some.mp he).2
    have hset := get_set_self he { e with tsk.skSport := p } hlive
    simp only [Tables.tcpSockSetSport, he, hchoose, Option.bind_eq_bind, Option.bind_some,
      Tables.tcpBindHash, hset]
    rw [show (d.tables.set i { e with tsk.skSport := p }).links = d.tables.links from rfl, hlinks]
    rfl

theorem setsRight (h : PortFiling d L) (he : d.tables.get i = some e) (port : UInt16) :
    d.SetsRight i port := by
  rcases h.tcpSockSetSport he port with ⟨hnone, hresult⟩ | ⟨hsome, p, links, hsuits, -, hresult⟩
  · exact ⟨-1, d.tables, hresult, .inl ⟨rfl, hnone, rfl⟩⟩
  · have hlive := (get_eq_some.mp he).2
    have hset := get_set_self he { e with tsk.skSport := p } hlive
    exact ⟨0, _, hresult, .inr ⟨rfl, hsome, p, _, hsuits, get_set_self hset _ hlive, rfl⟩⟩

theorem alloc (h : PortFiling d L) (ht : d.tables.alloc tsk = some t) :
    ∃ L', PortFiling { d with tables := t } L' := by
  obtain ⟨htsks, hbooks⟩ := h.books.extend ht
  obtain ⟨links, hlinks, rfl⟩ := Option.map_eq_some_iff.mp ht
  refine ⟨_, hbooks, ?_, ?_, fun j hj => ?_⟩
  · rw [htsks]
    exact (h.bound.append tsk).update (fun _ => by simp) _
  · rw [htsks]
    intro j hj k hk tsk₁ tsk₂ htsk₁ htsk₂
    rw [List.getElem?_append_left (h.bound.bound j hj)] at htsk₁
    rw [List.getElem?_append_left (h.bound.bound k hk)] at htsk₂
    exact h.distinct j hj k hk tsk₁ tsk₂ htsk₁ htsk₂
  · exact h.books.lists.null_addTail (h.null j hj) (by simp) hlinks

theorem set (h : PortFiling d L) (he : d.tables.get i = some e) (tsk : TcpSock)
    (hkeeps : i ∈ d.bound → tsk.skSport = e.tsk.skSport) :
    PortFiling { d with tables := d.tables.set i { e with tsk := tsk } } L := by
  obtain ⟨hentry, hlive⟩ := get_eq_some.mp he
  have htsk := tsks_get he
  have htsks : (d.tables.set i { e with tsk := tsk }).tsks = d.tables.tsks.set i tsk :=
    List.map_set
  have hold {j : ℕ} (hj : j ∈ d.bound) {tsk' : TcpSock}
      (htsk' : (d.tables.tsks.set i tsk)[j]? = some tsk') :
      ∃ tsk₀, d.tables.tsks[j]? = some tsk₀ ∧ tsk'.skSport = tsk₀.skSport := by
    by_cases hij : i = j
    · subst hij
      rw [List.getElem?_set_self (h.bound.bound i hj)] at htsk'
      obtain rfl := Option.some.inj htsk'
      exact ⟨e.tsk, htsk, hkeeps hj⟩
    · rw [List.getElem?_set_ne hij] at htsk'
      exact ⟨tsk', htsk', rfl⟩
  refine ⟨h.books.set _ hentry rfl hlive, ?_, ?_, h.null⟩
  · rw [htsks]
    exact h.bound.set htsk fun hi => by rw [portHash, hkeeps hi, portHash]
  · rw [htsks]
    intro j hj k hk tsk₁ tsk₂ htsk₁ htsk₂ hport
    obtain ⟨old₁, hold₁, hport₁⟩ := hold hj htsk₁
    obtain ⟨old₂, hold₂, hport₂⟩ := hold hk htsk₂
    exact h.distinct j hj k hk old₁ old₂ hold₁ hold₂ (hport₁.symm.trans (hport.trans hport₂))

/-- A socket with a port that no bound socket has is put into the bind table. -/
theorem bindHash (h : PortFiling d L) (hi : i ∉ d.assigned) (he : d.tables.get i = some e)
    (hfree : ¬d.Used e.tsk.skSport) {links : Links ListNode}
    (hlinks : d.tables.links.addHead (.bindHashList i) (.head (.bind (portHash e.tsk))) =
      some links) :
    ∃ L', PortFiling { d with
      tables := d.tables.refer i e links, bound := insert i d.bound } L' := by
  have hx : .bindHashList i ∈ nodesOf i := by simp [nodesOf]
  have htsk := tsks_get he
  have hother {j : ℕ} (hj : j ∈ d.bound) {tsk' : TcpSock} (htsk' : d.tables.tsks[j]? = some tsk') :
      tsk'.skSport ≠ e.tsk.skSport := by
    obtain ⟨e', he', rfl⟩ := h.books.get_of_tsks htsk'
    exact fun hport => hfree ⟨j, hj, e', he', hport⟩
  obtain ⟨htsks, hbooks⟩ := h.books.push he hx (h.not_listed hi) hlinks
  refine ⟨_, hbooks, ?_, ?_, fun j hj => ?_⟩
  · rw [htsks]
    exact h.bound.insert bind_injective htsk
  · rw [htsks]
    intro j hj k hk tsk₁ tsk₂ htsk₁ htsk₂ hport
    rcases Finset.mem_insert.mp hj with rfl | hj' <;>
      rcases Finset.mem_insert.mp hk with rfl | hk'
    · rfl
    · obtain rfl := Option.some.inj (htsk.symm.trans htsk₁)
      exact absurd hport.symm (hother hk' htsk₂)
    · obtain rfl := Option.some.inj (htsk.symm.trans htsk₂)
      exact absurd hport (hother hj' htsk₁)
    · exact h.distinct j hj' k hk' tsk₁ tsk₂ htsk₁ htsk₂ hport
  · have hout : j ≠ i ∧ j ∉ d.assigned := by
      simp only [assigned, Finset.mem_union, Finset.mem_insert] at hj ⊢
      tauto
    exact h.books.lists.null_addHead (h.null j hout.2) (bindHashList_injective.ne hout.1) hlinks

theorem setSport (h : PortFiling d L) (hok : d.Once (.setSport i port))
    (hstep : d.step (.setSport i port) = some d') : ∃ L', PortFiling d' L' := by
  obtain ⟨⟨code, t⟩, hresult, hcode⟩ := Option.bind_eq_some_iff.mp hstep
  obtain ⟨e, he, -⟩ := Option.bind_eq_some_iff.mp hresult
  rcases h.tcpSockSetSport he port with ⟨-, hfails⟩ | ⟨-, p, links, hsuits, hlinks, hsets⟩
  · obtain ⟨rfl, rfl⟩ := Prod.mk.inj (Option.some.inj (hfails.symm.trans hresult))
    cases hcode
    exact ⟨L, h⟩
  · obtain ⟨rfl, rfl⟩ := Prod.mk.inj (Option.some.inj (hsets.symm.trans hresult))
    have hi : i ∉ d.assigned := fun hmem => lt_irrefl _ (hok hmem _ hresult)
    have hnew : i ∉ d.bound := fun hmem => hi (Finset.mem_union_left _ hmem)
    have hset := h.set he { e.tsk with skSport := p } fun hmem => absurd hmem hnew
    have hget := get_set_self he { e with tsk.skSport := p } (get_eq_some.mp he).2
    dsimp only at hcode
    rw [if_neg (lt_irrefl 0)] at hcode
    cases hcode
    refine hset.bindHash hi hget ?_ hlinks
    rintro ⟨j, hj, e', he', hport⟩
    have hij : i ≠ j := fun heq => hnew (heq ▸ hj)
    refine hsuits.1 ⟨j, hj, e', ?_, hport⟩
    rwa [Tables.get, Tables.set, List.getElem?_set_ne hij] at he'

theorem bindUnhash (h : PortFiling d L) (hi : i ∈ d.bound)
    (hstep : d.step (.bindUnhash i) = some d') : ∃ L', PortFiling d' L' := by
  obtain ⟨t, ht, rfl⟩ := Option.map_eq_some_iff.mp hstep
  have hx : .bindHashList i ∈ nodesOf i := by simp [nodesOf]
  obtain ⟨tsk, htsk, hmem⟩ := h.bound.listed hi
  rw [Tables.tcpBindUnhash, if_neg (h.books.lists.next_ne_self ⟨_, hmem⟩)] at ht
  obtain ⟨htsks, hdelete, hbooks⟩ := h.books.remove hmem hx (by simp) ht
  refine ⟨_, hbooks, ?_, ?_, fun j hj => ?_⟩
  · rw [htsks]
    exact h.bound.erase bind_injective bindHashList_injective htsk
      (List.nodup_cons.mp (h.books.lists.ring _).nodup).2
  · rw [htsks]
    exact fun j hj k hk =>
      h.distinct j (Finset.mem_of_mem_erase hj) k (Finset.mem_of_mem_erase hk)
  · refine h.books.lists.null_delete (h.null j ?_) hmem hdelete
    simp only [assigned, Finset.mem_union, Finset.mem_erase, Finset.mem_insert] at hj ⊢
    tauto

theorem step (h : PortFiling d L) {ev : PortEvent} (hok : d.Once ev)
    (hstep : d.step ev = some d') : ∃ L', PortFiling d' L' := by
  cases ev with
  | alloc tsk =>
    obtain ⟨t, ht, rfl⟩ := Option.map_eq_some_iff.mp hstep
    exact h.alloc ht
  | change i tsk =>
    obtain ⟨e, he, rfl⟩ := Option.map_eq_some_iff.mp hstep
    exact ⟨L, h.set he tsk (hok e he)⟩
  | setSport i port => exact h.setSport hok hstep
  | bindUnhash i => exact h.bindUnhash hok hstep

end PortFiling

theorem portFiling_of_reaches (h : Reaches Ports.step Once (· = init) d) : ∃ L, PortFiling d L :=
  h.invariant (fun d => ∃ L, PortFiling d L) (fun _ hinit => hinit ▸ ⟨_, portFiling_init⟩)
    fun _ _ _ ⟨_, hL⟩ hok hstep => hL.step hok hstep

end Invariant

section Results

open Ports

variable {d : Ports} {L : ListName → List ListNode}

/-- The bind table holds the sockets that are bound, with different ports, and
`tcp_sock_set_sport` fails when there is no port to be had and not otherwise. -/
structure Ports.Allocates (d : Ports) : Prop where
  inMemory : ∀ i ∈ d.bound, ∃ e, d.tables.get i = some e
  bound : ∀ b, ∃ es, d.tables.bucket (.bind b) = some es ∧ (es.map Prod.fst).Nodup ∧
    ∀ p, p ∈ es ↔ p.1 ∈ d.bound ∧ d.tables.get p.1 = some p.2 ∧ portHash p.2.tsk = b
  distinct : ∀ b b' es es', d.tables.bucket (.bind b) = some es →
    d.tables.bucket (.bind b') = some es' →
    ∀ p ∈ es, ∀ p' ∈ es', p.2.tsk.skSport = p'.2.tsk.skSport → p.1 = p'.1
  setSport : ∀ i port, (∃ e, d.tables.get i = some e) → d.SetsRight i port

theorem PortFiling.bound_distinct (h : PortFiling d L) {b b' : UInt8}
    {es es' : List (ℕ × SockEntry)} (hes : d.tables.bucket (.bind b) = some es)
    (hes' : d.tables.bucket (.bind b') = some es') {p p' : ℕ × SockEntry} (hp : p ∈ es)
    (hp' : p' ∈ es') (hport : p.2.tsk.skSport = p'.2.tsk.skSport) : p.1 = p'.1 := by
  obtain ⟨es₀, hes₀, -, hmem⟩ := h.bucket b
  obtain ⟨es₁, hes₁, -, hmem'⟩ := h.bucket b'
  obtain rfl := Option.some.inj (hes.symm.trans hes₀)
  obtain rfl := Option.some.inj (hes'.symm.trans hes₁)
  obtain ⟨hfiled, hget, -⟩ := (hmem p).mp hp
  obtain ⟨hfiled', hget', -⟩ := (hmem' p').mp hp'
  exact h.distinct _ hfiled _ hfiled' _ _ (tsks_get hget) (tsks_get hget') hport

theorem ports_allocated (h : Reaches Ports.step Once (· = init) d) : d.Allocates := by
  obtain ⟨L, hL⟩ := portFiling_of_reaches h
  refine ⟨fun i hi => ?_, hL.bucket, fun _ _ _ _ hes hes' _ hp _ hp' =>
    hL.bound_distinct hes hes' hp hp', fun i port ⟨e, he⟩ => hL.setsRight he port⟩
  obtain ⟨e, he, -⟩ := hL.books.get_of_tsks (List.getElem?_eq_getElem (hL.bound.bound i hi))
  exact ⟨e, he⟩

/-- Two sockets get the first two free ports, a third asks for the port of the first until it is
released. -/
def sharedPorts : List PortEvent :=
  [.alloc allocTcpSock, .setSport 0 0, .alloc allocTcpSock, .setSport 1 0, .alloc allocTcpSock,
    .setSport 2 12345, .bindUnhash 0, .setSport 2 12345]

theorem sharedPorts_allocated :
    ((exec Ports.step Once init sharedPorts).get (by decide +kernel)).Allocates :=
  ports_allocated (.exec_get init sharedPorts (by decide +kernel))

end Results

end NetworkLab.Tcp
