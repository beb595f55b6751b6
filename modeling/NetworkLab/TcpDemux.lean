import NetworkLab.GuardedRuns
import NetworkLab.TableContents

/-!
# Demultiplexing

Sockets are hashed into the established table or the listen table and taken out again. A packet
is given to the socket that its addresses and ports find there.
-/
namespace NetworkLab.Tcp
open LinkedLists GuardedRuns Tables

section Hashing

/-- `tcp_hash` with the value that it returns. -/
def Tables.tcpHashResult (s : Tables) (i : ℕ) : Option (ℤ × Tables) := do
  let e ← s.get i
  match e.tsk.state with
  | .closed => some (-1, s)
  | .listen =>
    let links ← s.links.addHead (.hashList i)
      (.head (.listen (tcpHashFunction 0 0 e.tsk.skSport 0)))
    some (0, s.refer i e links)
  | _ =>
    let l : ListName :=
      .established (tcpHashFunction e.tsk.skSip e.tsk.skDip e.tsk.skSport e.tsk.skDport)
    let es ← s.bucket l
    if es.any fun e' => decide (SameEnds e.tsk e'.2.tsk) then some (-1, s)
    else
      let links ← s.links.addHead (.hashList i) (.head l)
      some (0, s.refer i e links)

theorem tcpHash_eq_result (s : Tables) (i : ℕ) :
    s.tcpHash i = (s.tcpHashResult i).map Prod.snd := by
  unfold Tables.tcpHash Tables.tcpHashResult
  cases s.get i with
  | none => rfl
  | some e =>
    simp only [Option.bind_eq_bind, Option.bind_some]
    cases e.tsk.state with
    | closed => rfl
    | listen => cases s.links.addHead _ _ <;> rfl
    | _ =>
      cases s.bucket _ with
      | none => rfl
      | some es =>
        simp only [Option.bind_some]
        split_ifs
        · rfl
        · cases s.links.addHead _ _ <;> rfl

end Hashing

section Demultiplexer

/-- The tables with what has been hashed: the sockets that are in the established table and in
the listen table, and those that have been taken out. -/
structure Demux where
  tables : Tables
  established : Finset ℕ
  listening : Finset ℕ
  unhashed : Finset ℕ

/-- `change` is everything that writes to a socket. -/
inductive DemuxEvent
  | alloc (tsk : TcpSock)
  | change (i : ℕ) (tsk : TcpSock)
  | hash (i : ℕ)
  | unhash (i : ℕ)

namespace Demux

def init : Demux := ⟨initTcpStack, ∅, ∅, ∅⟩

/-- The sockets that have been in a table at some time. -/
def hashed (d : Demux) : Finset ℕ := d.established ∪ d.listening ∪ d.unhashed

def step (d : Demux) : DemuxEvent → Option Demux
  | .alloc tsk => (d.tables.alloc tsk).map fun t => { d with tables := t }
  | .change i tsk =>
    (d.tables.get i).map fun e => { d with tables := d.tables.set i { e with tsk := tsk } }
  | .hash i => do
    let e ← d.tables.get i
    let (code, t) ← d.tables.tcpHashResult i
    if code < 0 then some { d with tables := t }
    else if e.tsk.state = .listen then
      some { d with tables := t, listening := insert i d.listening }
    else some { d with tables := t, established := insert i d.established }
  | .unhash i => (d.tables.tcpUnhash i).map fun t =>
    { tables := t
      established := d.established.erase i
      listening := d.listening.erase i
      unhashed := insert i d.unhashed }

/-- A socket is put into a table once and taken out once, and while it is in a table it keeps its
addresses and ports, and does not begin or cease to listen. -/
def Once (d : Demux) : DemuxEvent → Prop
  | .alloc _ => True
  | .change i tsk => ∀ e ∈ d.tables.get i, i ∈ d.established ∪ d.listening →
      SameEnds tsk e.tsk ∧ (tsk.state = .listen ↔ e.tsk.state = .listen)
  | .hash i => i ∈ d.hashed → ∀ r ∈ d.tables.tcpHashResult i, r.1 < 0
  | .unhash i => i ∉ d.unhashed

instance (d : Demux) (ev : DemuxEvent) : Decidable (d.Once ev) := by
  cases ev <;> unfold Once <;> infer_instance

/-- A socket of the established table has these addresses and ports. -/
def Taken (d : Demux) (tsk : TcpSock) : Prop :=
  ∃ i ∈ d.established, ∃ e, d.tables.get i = some e ∧ SameEnds tsk e.tsk

/-- The sockets that are not put into a table. -/
def Refuses (d : Demux) (tsk : TcpSock) : Prop :=
  tsk.state = .closed ∨ tsk.state ≠ .listen ∧ d.Taken tsk

/-- What `tcp_hash` returns, and what it does when it refuses a socket. -/
def HashesRight (d : Demux) (i : ℕ) (e : SockEntry) : Prop :=
  ∃ code t, d.tables.tcpHashResult i = some (code, t) ∧
    (code = -1 ∧ d.Refuses e.tsk ∧ t = d.tables ∨ code = 0 ∧ ¬d.Refuses e.tsk)

def Connected (d : Demux) (cb : TcpCb) (i : ℕ) : Prop :=
  i ∈ d.established ∧ ∃ e, d.tables.get i = some e ∧ SameTuple e.tsk cb

def Listens (d : Demux) (cb : TcpCb) (i : ℕ) : Prop :=
  i ∈ d.listening ∧ ∃ e, d.tables.get i = some e ∧ e.tsk.skSport = cb.dport

/-- The established socket of a packet comes before a listening one. -/
def Finds (d : Demux) (cb : TcpCb) : Option ℕ → Prop
  | some i => d.Connected cb i ∨ (∀ j, ¬d.Connected cb j) ∧ d.Listens cb i
  | none => ∀ j, ¬d.Connected cb j ∧ ¬d.Listens cb j

end Demux

end Demultiplexer

section Invariant

open Demux

/-- Sockets of the established table do not listen, and no two have the same addresses and ports;
sockets of the listen table listen. -/
structure Classed (tsks : List TcpSock) (established listening : Finset ℕ) : Prop where
  connected : ∀ i ∈ established, ∀ tsk, tsks[i]? = some tsk → tsk.state ≠ .listen
  listens : ∀ i ∈ listening, ∀ tsk, tsks[i]? = some tsk → tsk.state = .listen
  unique : ∀ i ∈ established, ∀ j ∈ established, ∀ tsk tsk', tsks[i]? = some tsk →
    tsks[j]? = some tsk' → SameEnds tsk tsk' → i = j

/-- The lists hold what has been hashed and not been taken out. The links of a socket that has
not been hashed are null. -/
structure Filing (d : Demux) (L : ListName → List ListNode) : Prop where
  books : Books 0 d.tables L
  established : Filed d.tables.tsks L .established .hashList tupleHash d.established
  listening : Filed d.tables.tsks L .listen .hashList portHash d.listening
  classed : Classed d.tables.tsks d.established d.listening
  null : ∀ i ∉ d.hashed, d.tables.links.next (.hashList i) = none

variable {d d' : Demux} {t : Tables} {L : ListName → List ListNode} {i : ℕ} {e : SockEntry}
  {tsk : TcpSock}

namespace Classed

variable {tsks tsks' : List TcpSock} {established listening : Finset ℕ}

/-- Sockets that are in no table are changed as they like. -/
theorem of_kept (h : Classed tsks established listening)
    (hkept : ∀ i ∈ established ∪ listening, ∀ tsk', tsks'[i]? = some tsk' →
      ∃ tsk, tsks[i]? = some tsk ∧ SameEnds tsk' tsk ∧
        (tsk'.state = .listen ↔ tsk.state = .listen)) :
    Classed tsks' established listening := by
  refine ⟨fun i hi tsk' htsk' => ?_, fun i hi tsk' htsk' => ?_,
    fun i hi j hj tsk₁ tsk₂ htsk₁ htsk₂ hsame => ?_⟩
  · obtain ⟨tsk, htsk, -, hlisten⟩ := hkept i (Finset.mem_union_left _ hi) tsk' htsk'
    exact mt hlisten.mp (h.connected i hi tsk htsk)
  · obtain ⟨tsk, htsk, -, hlisten⟩ := hkept i (Finset.mem_union_right _ hi) tsk' htsk'
    exact hlisten.mpr (h.listens i hi tsk htsk)
  · obtain ⟨old₁, hold₁, ⟨hsip₁, hdip₁, hsport₁, hdport₁⟩, -⟩ :=
      hkept i (Finset.mem_union_left _ hi) tsk₁ htsk₁
    obtain ⟨old₂, hold₂, ⟨hsip₂, hdip₂, hsport₂, hdport₂⟩, -⟩ :=
      hkept j (Finset.mem_union_left _ hj) tsk₂ htsk₂
    obtain ⟨hsip, hdip, hsport, hdport⟩ := hsame
    exact h.unique i hi j hj old₁ old₂ hold₁ hold₂
      ⟨hsip₁ ▸ hsip₂ ▸ hsip, hdip₁ ▸ hdip₂ ▸ hdip, hsport₁ ▸ hsport₂ ▸ hsport,
        hdport₁ ▸ hdport₂ ▸ hdport⟩

theorem notMem_listening (h : Classed tsks established listening) (htsk : tsks[i]? = some tsk)
    (hi : i ∈ established) : i ∉ listening :=
  fun hi' => h.connected i hi tsk htsk (h.listens i hi' tsk htsk)

theorem erase (h : Classed tsks established listening) (i : ℕ) :
    Classed tsks (established.erase i) (listening.erase i) :=
  ⟨fun j hj => h.connected j (Finset.mem_of_mem_erase hj),
    fun j hj => h.listens j (Finset.mem_of_mem_erase hj),
    fun j hj k hk => h.unique j (Finset.mem_of_mem_erase hj) k (Finset.mem_of_mem_erase hk)⟩

theorem listen (h : Classed tsks established listening) (htsk : tsks[i]? = some tsk)
    (hlisten : tsk.state = .listen) : Classed tsks established (insert i listening) := by
  refine ⟨h.connected, fun j hj tsk' htsk' => ?_, h.unique⟩
  rcases Finset.mem_insert.mp hj with rfl | hj
  · obtain rfl := Option.some.inj (htsk.symm.trans htsk')
    exact hlisten
  · exact h.listens j hj tsk' htsk'

theorem connect (h : Classed tsks established listening) (htsk : tsks[i]? = some tsk)
    (hlisten : tsk.state ≠ .listen)
    (hfree : ∀ j ∈ established, ∀ tsk', tsks[j]? = some tsk' → ¬SameEnds tsk tsk') :
    Classed tsks (insert i established) listening := by
  refine ⟨fun j hj tsk' htsk' => ?_, h.listens, fun j hj k hk tsk₁ tsk₂ htsk₁ htsk₂ hsame => ?_⟩
  · rcases Finset.mem_insert.mp hj with rfl | hj
    · obtain rfl := Option.some.inj (htsk.symm.trans htsk')
      exact hlisten
    · exact h.connected j hj tsk' htsk'
  · rcases Finset.mem_insert.mp hj with rfl | hj' <;>
      rcases Finset.mem_insert.mp hk with rfl | hk'
    · rfl
    · obtain rfl := Option.some.inj (htsk.symm.trans htsk₁)
      exact absurd hsame (hfree k hk' tsk₂ htsk₂)
    · obtain rfl := Option.some.inj (htsk.symm.trans htsk₂)
      obtain ⟨hsip, hdip, hsport, hdport⟩ := hsame
      exact absurd ⟨hsip.symm, hdip.symm, hsport.symm, hdport.symm⟩ (hfree j hj' tsk₁ htsk₁)
    · exact h.unique j hj' k hk' tsk₁ tsk₂ htsk₁ htsk₂ hsame

end Classed

theorem filing_init : Filing init fun _ => [] where
  books := books_init
  established := ⟨fun _ hi => absurd hi (Finset.notMem_empty _), fun _ _ => by simp [init]⟩
  listening := ⟨fun _ hi => absurd hi (Finset.notMem_empty _), fun _ _ => by simp [init]⟩
  classed := ⟨fun _ hi => absurd hi (Finset.notMem_empty _),
    fun _ hi => absurd hi (Finset.notMem_empty _), fun _ hi => absurd hi (Finset.notMem_empty _)⟩
  null _ _ := rfl

/-- A connection is put into the established table unless the loop over its bucket finds one
with the same addresses and ports. -/
theorem tcpHashResult_of_connection {s : Tables} (he : s.get i = some e)
    (hclosed : e.tsk.state ≠ .closed) (hlisten : e.tsk.state ≠ .listen)
    {es : List (ℕ × SockEntry)} (hes : s.bucket (.established (tupleHash e.tsk)) = some es) :
    s.tcpHashResult i =
      if es.any fun e' => decide (SameEnds e.tsk e'.2.tsk) then some (-1, s)
      else (s.links.addHead (.hashList i) (.head (.established (tupleHash e.tsk)))).map
        fun links => (0, s.refer i e links) := by
  rw [tupleHash] at hes
  unfold Tables.tcpHashResult
  rw [he]
  simp only [Option.bind_eq_bind, Option.bind_some]
  cases hstate : e.tsk.state with
  | closed => exact absurd hstate hclosed
  | listen => exact absurd hstate hlisten
  | _ =>
    simp only [hes, Option.bind_some, tupleHash]
    rw [Option.map_eq_bind]
    rfl

/-- The loop over its bucket finds a socket with the same addresses and ports if there is one. -/
theorem any_sameEnds_iff {es : List (ℕ × SockEntry)}
    (hmem : ∀ p, p ∈ es ↔ p.1 ∈ d.established ∧ d.tables.get p.1 = some p.2 ∧
      tupleHash p.2.tsk = tupleHash tsk) :
    (es.any fun e' => decide (SameEnds tsk e'.2.tsk)) = true ↔ d.Taken tsk := by
  rw [List.any_eq_true]
  constructor
  · rintro ⟨⟨j, e'⟩, hp, hsame⟩
    obtain ⟨hj, he', -⟩ := (hmem _).mp hp
    exact ⟨j, hj, e', he', of_decide_eq_true hsame⟩
  · rintro ⟨j, hj, e', he', hsame⟩
    exact ⟨(j, e'), (hmem _).mpr ⟨hj, he', (tupleHash_eq hsame).symm⟩, decide_eq_true hsame⟩

namespace Filing

theorem not_listed (h : Filing d L) (hi : i ∉ d.hashed) : ¬Listed L (.hashList i) :=
  fun hx => h.books.lists.next_ne_none hx (h.null i hi)

theorem bucket_established (h : Filing d L) (b : UInt8) :
    ∃ es, d.tables.bucket (.established b) = some es ∧ (es.map Prod.fst).Nodup ∧
      ∀ p, p ∈ es ↔ p.1 ∈ d.established ∧ d.tables.get p.1 = some p.2 ∧
        tupleHash p.2.tsk = b :=
  h.established.bucket h.books hashList_injective fun _ => rfl

theorem bucket_listen (h : Filing d L) (b : UInt8) :
    ∃ es, d.tables.bucket (.listen b) = some es ∧ (es.map Prod.fst).Nodup ∧
      ∀ p, p ∈ es ↔ p.1 ∈ d.listening ∧ d.tables.get p.1 = some p.2 ∧ portHash p.2.tsk = b :=
  h.listening.bucket h.books hashList_injective fun _ => rfl

/-- The list that a socket is put into. -/
def listOf (tsk : TcpSock) : ListName :=
  if tsk.state = .listen then .listen (portHash tsk) else .established (tupleHash tsk)

/-- A socket is refused, or put first in its list. -/
theorem tcpHashResult (h : Filing d L) (he : d.tables.get i = some e) :
    d.Refuses e.tsk ∧ d.tables.tcpHashResult i = some (-1, d.tables) ∨
      ¬d.Refuses e.tsk ∧ ∃ links,
        d.tables.links.addHead (.hashList i) (.head (listOf e.tsk)) = some links ∧
        d.tables.tcpHashResult i = some (0, d.tables.refer i e links) := by
  obtain ⟨links, hlinks⟩ := h.books.lists.addHead_defined (listOf e.tsk) (.hashList i)
  by_cases hclosed : e.tsk.state = .closed
  · refine .inl ⟨.inl hclosed, ?_⟩
    simp [Tables.tcpHashResult, he, hclosed]
  by_cases hlisten : e.tsk.state = .listen
  · refine .inr ⟨fun hrefuse => hrefuse.elim hclosed fun hne => hne.1 hlisten, links, hlinks, ?_⟩
    rw [listOf, if_pos hlisten, portHash] at hlinks
    simp [Tables.tcpHashResult, he, hlisten, hlinks]
  · obtain ⟨es, hes, -, hmem⟩ := h.bucket_established (tupleHash e.tsk)
    have hresult := tcpHashResult_of_connection he hclosed hlisten hes
    have htaken := any_sameEnds_iff hmem
    by_cases hfound : d.Taken e.tsk
    · rw [if_pos (htaken.mpr hfound)] at hresult
      exact .inl ⟨.inr ⟨hlisten, hfound⟩, hresult⟩
    · rw [if_neg (mt htaken.mp hfound)] at hresult
      refine .inr ⟨fun hrefuse => hrefuse.elim hclosed fun hother => hfound hother.2, links,
        hlinks, ?_⟩
      rw [listOf, if_neg hlisten] at hlinks
      rw [hresult, hlinks, Option.map_some]

theorem hashesRight (h : Filing d L) (he : d.tables.get i = some e) : d.HashesRight i e := by
  rcases h.tcpHashResult he with ⟨hrefuse, hresult⟩ | ⟨haccept, links, -, hresult⟩
  · exact ⟨-1, d.tables, hresult, .inl ⟨rfl, hrefuse, rfl⟩⟩
  · exact ⟨0, _, hresult, .inr ⟨rfl, haccept⟩⟩

/-- A packet is given to the socket that it belongs to. -/
theorem lookup (h : Filing d L) (cb : TcpCb) :
    ∃ r, d.tables.lookup cb = some r ∧ d.Finds cb r := by
  obtain ⟨es, hes, -, hmem⟩ :=
    h.bucket_established (tcpHashFunction cb.daddr cb.saddr cb.dport cb.sport)
  obtain ⟨ls, hls, -, hmem'⟩ := h.bucket_listen (tcpHashFunction 0 0 cb.dport 0)
  unfold Tables.lookup
  rw [hes]
  simp only [Option.bind_eq_bind, Option.bind_some]
  cases hfind : es.find? fun e => decide (SameTuple e.2.tsk cb) with
  | some p =>
    obtain ⟨hp, hget, -⟩ := (hmem p).mp (List.mem_of_find?_eq_some hfind)
    have hsame := List.find?_some hfind
    exact ⟨some p.1, rfl, .inl ⟨hp, p.2, hget, of_decide_eq_true hsame⟩⟩
  | none =>
    have hnone : ∀ j, ¬d.Connected cb j := by
      rintro j ⟨hj, e', he', hsame⟩
      have hfiled := (hmem (j, e')).mpr ⟨hj, he', tupleHash_of_sameTuple hsame⟩
      exact List.find?_eq_none.mp hfind _ hfiled (decide_eq_true hsame)
    refine ⟨_, by rw [hls, Option.bind_some], ?_⟩
    cases hfind' : ls.find? fun e => decide (e.2.tsk.skSport = cb.dport) with
    | some p =>
      obtain ⟨hp, hget, -⟩ := (hmem' p).mp (List.mem_of_find?_eq_some hfind')
      have hport := List.find?_some hfind'
      exact .inr ⟨hnone, hp, p.2, hget, of_decide_eq_true hport⟩
    | none =>
      refine fun j => ⟨hnone j, ?_⟩
      rintro ⟨hj, e', he', hport⟩
      have hfiled := (hmem' (j, e')).mpr ⟨hj, he', by rw [portHash, hport]⟩
      exact List.find?_eq_none.mp hfind' _ hfiled (decide_eq_true hport)

theorem alloc (h : Filing d L) (ht : d.tables.alloc tsk = some t) :
    ∃ L', Filing { d with tables := t } L' := by
  obtain ⟨htsks, hbooks⟩ := h.books.extend ht
  obtain ⟨links, hlinks, rfl⟩ := Option.map_eq_some_iff.mp ht
  refine ⟨_, hbooks, ?_, ?_, ?_, fun j hj => ?_⟩
  · rw [htsks]
    exact (h.established.append tsk).update (fun _ => by simp) _
  · rw [htsks]
    exact (h.listening.append tsk).update (fun _ => by simp) _
  · rw [htsks]
    refine h.classed.of_kept fun j hj tsk' htsk' => ⟨tsk', ?_, ⟨rfl, rfl, rfl, rfl⟩, Iff.rfl⟩
    have hlt : j < d.tables.tsks.length :=
      (Finset.mem_union.mp hj).elim (h.established.bound j) (h.listening.bound j)
    rwa [List.getElem?_append_left hlt] at htsk'
  · exact h.books.lists.null_addTail (h.null j hj) (by simp) hlinks

theorem change (h : Filing d L) (he : d.tables.get i = some e)
    (hkeeps : i ∈ d.established ∪ d.listening →
      SameEnds tsk e.tsk ∧ (tsk.state = .listen ↔ e.tsk.state = .listen)) :
    Filing { d with tables := d.tables.set i { e with tsk := tsk } } L := by
  obtain ⟨hentry, hlive⟩ := get_eq_some.mp he
  have htsk := tsks_get he
  have htsks : (d.tables.set i { e with tsk := tsk }).tsks = d.tables.tsks.set i tsk :=
    List.map_set
  refine ⟨h.books.set _ hentry rfl hlive, ?_, ?_, ?_, h.null⟩
  · rw [htsks]
    exact h.established.set htsk fun hi => tupleHash_eq (hkeeps (Finset.mem_union_left _ hi)).1
  · rw [htsks]
    exact h.listening.set htsk fun hi => portHash_eq (hkeeps (Finset.mem_union_right _ hi)).1
  · rw [htsks]
    refine h.classed.of_kept fun j hj tsk' htsk' => ?_
    by_cases hij : i = j
    · subst hij
      obtain rfl : tsk = tsk' := by
        rw [List.getElem?_set_self (List.getElem?_eq_some_iff.mp htsk).1] at htsk'
        exact Option.some.inj htsk'
      exact ⟨e.tsk, htsk, hkeeps hj⟩
    · rw [List.getElem?_set_ne hij] at htsk'
      exact ⟨tsk', htsk', ⟨rfl, rfl, rfl, rfl⟩, Iff.rfl⟩

/-- A socket is put into the list that it belongs to. -/
theorem enter (h : Filing d L) (hi : i ∉ d.hashed) (he : d.tables.get i = some e)
    (haccept : ¬d.Refuses e.tsk) {links : Links ListNode}
    (hlinks : d.tables.links.addHead (.hashList i) (.head (listOf e.tsk)) = some links) :
    ∃ L', Filing (if e.tsk.state = .listen then
      { d with tables := d.tables.refer i e links, listening := insert i d.listening }
      else { d with tables := d.tables.refer i e links, established := insert i d.established })
      L' := by
  have hx : .hashList i ∈ nodesOf i := by simp [nodesOf]
  have htsk := tsks_get he
  obtain ⟨htsks, hbooks⟩ := h.books.push he hx (h.not_listed hi) hlinks
  have hnull {j : ℕ} (hne : j ≠ i) (hj : j ∉ d.hashed) : links.next (.hashList j) = none :=
    h.books.lists.null_addHead (h.null j hj) (hashList_injective.ne hne) hlinks
  by_cases hlisten : e.tsk.state = .listen
  · rw [if_pos hlisten]
    rw [listOf, if_pos hlisten] at hbooks
    refine ⟨_, hbooks, ?_, ?_, ?_, fun j hj => ?_⟩
    · rw [htsks]
      exact h.established.update (fun _ => by simp) _
    · rw [htsks]
      exact h.listening.insert listen_injective htsk
    · rw [htsks]
      exact h.classed.listen htsk hlisten
    · have hout : j ≠ i ∧ j ∉ d.hashed := by
        simp only [hashed, Finset.mem_union, Finset.mem_insert] at hj ⊢
        tauto
      exact hnull hout.1 hout.2
  · rw [if_neg hlisten]
    rw [listOf, if_neg hlisten] at hbooks
    refine ⟨_, hbooks, ?_, ?_, ?_, fun j hj => ?_⟩
    · rw [htsks]
      exact h.established.insert established_injective htsk
    · rw [htsks]
      exact h.listening.update (fun _ => by simp) _
    · rw [htsks]
      refine h.classed.connect htsk hlisten fun j hj tsk' htsk' hsame => ?_
      obtain ⟨e', he', rfl⟩ := h.books.get_of_tsks htsk'
      exact haccept (.inr ⟨hlisten, j, hj, e', he', hsame⟩)
    · have hout : j ≠ i ∧ j ∉ d.hashed := by
        simp only [hashed, Finset.mem_union, Finset.mem_insert] at hj ⊢
        tauto
      exact hnull hout.1 hout.2

theorem hash (h : Filing d L) (hok : d.Once (.hash i)) (hstep : d.step (.hash i) = some d') :
    ∃ L', Filing d' L' := by
  obtain ⟨e, he, hrest⟩ := Option.bind_eq_some_iff.mp hstep
  obtain ⟨⟨code, t⟩, hresult, hcode⟩ := Option.bind_eq_some_iff.mp hrest
  rcases h.tcpHashResult he with ⟨-, hrefused⟩ | ⟨haccept, links, hlinks, haccepted⟩
  · obtain ⟨rfl, rfl⟩ := Prod.mk.inj (Option.some.inj (hrefused.symm.trans hresult))
    cases hcode
    exact ⟨L, h⟩
  · obtain ⟨rfl, rfl⟩ := Prod.mk.inj (Option.some.inj (haccepted.symm.trans hresult))
    have hi : i ∉ d.hashed := fun hmem => lt_irrefl _ (hok hmem _ hresult)
    have henter := h.enter hi he haccept hlinks
    dsimp only at hcode
    rw [if_neg (lt_irrefl 0)] at hcode
    split_ifs at hcode henter <;> cases hcode <;> exact henter

theorem unhash (h : Filing d L) (hi : i ∉ d.unhashed) (hstep : d.step (.unhash i) = some d') :
    ∃ L', Filing d' L' := by
  obtain ⟨t, ht, rfl⟩ := Option.map_eq_some_iff.mp hstep
  have hx : .hashList i ∈ nodesOf i := by simp [nodesOf]
  have hin : i ∈ d.established ∨ i ∈ d.listening := by
    -- the links of a socket that has not been hashed are null
    by_contra hout
    have hnull := h.null i (by simp only [hashed, Finset.mem_union]; tauto)
    rw [Tables.tcpUnhash, hnull, if_neg (Option.some_ne_none _).symm, unlink, Links.delete,
      hnull] at ht
    cases ht
  have hremove {l : ListName} (hmem : .hashList i ∈ L l) :
      t.tsks = d.tables.tsks ∧ d.tables.links.delete (.hashList i) = some t.links ∧
        Books 0 t (Function.update L l ((L l).erase (.hashList i))) := by
    rw [Tables.tcpUnhash, if_neg (h.books.lists.next_ne_self ⟨l, hmem⟩)] at ht
    exact h.books.remove hmem hx (by simp) ht
  have hnull {l : ListName} (hmem : .hashList i ∈ L l)
      (hdelete : d.tables.links.delete (.hashList i) = some t.links) (j : ℕ)
      (hj : j ∉ d.established.erase i ∪ d.listening.erase i ∪ insert i d.unhashed) :
      t.links.next (.hashList j) = none := by
    refine h.books.lists.null_delete (h.null j ?_) hmem hdelete
    simp only [hashed, Finset.mem_union, Finset.mem_erase, Finset.mem_insert] at hj ⊢
    tauto
  rcases hin with hconnected | hlistens
  · obtain ⟨tsk, htsk, hmem⟩ := h.established.listed hconnected
    obtain ⟨htsks, hdelete, hbooks⟩ := hremove hmem
    have hother := h.classed.notMem_listening htsk hconnected
    refine ⟨_, hbooks, ?_, ?_, ?_, hnull hmem hdelete⟩
    · rw [htsks]
      exact h.established.erase established_injective hashList_injective htsk
        (List.nodup_cons.mp (h.books.lists.ring _).nodup).2
    · rw [htsks, Finset.erase_eq_of_notMem hother]
      exact h.listening.update (fun _ => by simp) _
    · rw [htsks]
      exact h.classed.erase i
  · obtain ⟨tsk, htsk, hmem⟩ := h.listening.listed hlistens
    obtain ⟨htsks, hdelete, hbooks⟩ := hremove hmem
    have hother : i ∉ d.established := fun hi' => h.classed.notMem_listening htsk hi' hlistens
    refine ⟨_, hbooks, ?_, ?_, ?_, hnull hmem hdelete⟩
    · rw [htsks, Finset.erase_eq_of_notMem hother]
      exact h.established.update (fun _ => by simp) _
    · rw [htsks]
      exact h.listening.erase listen_injective hashList_injective htsk
        (List.nodup_cons.mp (h.books.lists.ring _).nodup).2
    · rw [htsks]
      exact h.classed.erase i

theorem step (h : Filing d L) {ev : DemuxEvent} (hok : d.Once ev)
    (hstep : d.step ev = some d') : ∃ L', Filing d' L' := by
  cases ev with
  | alloc tsk =>
    obtain ⟨t, ht, rfl⟩ := Option.map_eq_some_iff.mp hstep
    exact h.alloc ht
  | change i tsk =>
    obtain ⟨e, he, rfl⟩ := Option.map_eq_some_iff.mp hstep
    exact ⟨L, h.change he (hok e he)⟩
  | hash i => exact h.hash hok hstep
  | unhash i => exact h.unhash hok hstep

end Filing

theorem filing_of_reaches (h : Reaches Demux.step Once (· = init) d) : ∃ L, Filing d L :=
  h.invariant (fun d => ∃ L, Filing d L) (fun _ hinit => hinit ▸ ⟨_, filing_init⟩)
    fun _ _ _ ⟨_, hL⟩ hok hstep => hL.step hok hstep

end Invariant

section Results

open Demux

variable {d : Demux} {L : ListName → List ListNode}

/-- The tables hold the sockets that have been hashed and not been taken out, at most one in the
established table for each addresses and ports, and `tcp_hash` and `tcp_sock_lookup` answer by
what they hold. -/
structure Demux.Demultiplexes (d : Demux) : Prop where
  inMemory : ∀ i ∈ d.established ∪ d.listening, ∃ e, d.tables.get i = some e
  established : ∀ b, ∃ es, d.tables.bucket (.established b) = some es ∧ (es.map Prod.fst).Nodup ∧
    ∀ p, p ∈ es ↔ p.1 ∈ d.established ∧ d.tables.get p.1 = some p.2 ∧ tupleHash p.2.tsk = b
  listening : ∀ b, ∃ es, d.tables.bucket (.listen b) = some es ∧ (es.map Prod.fst).Nodup ∧
    ∀ p, p ∈ es ↔ p.1 ∈ d.listening ∧ d.tables.get p.1 = some p.2 ∧ portHash p.2.tsk = b
  one : ∀ b b' es es', d.tables.bucket (.established b) = some es →
    d.tables.bucket (.established b') = some es' →
    ∀ p ∈ es, ∀ p' ∈ es', SameEnds p.2.tsk p'.2.tsk → p.1 = p'.1
  hash : ∀ i e, d.tables.get i = some e → d.HashesRight i e
  lookup : ∀ cb, ∃ r, d.tables.lookup cb = some r ∧ d.Finds cb r

theorem Filing.inMemory (h : Filing d L) {i : ℕ} (hi : i ∈ d.established ∪ d.listening) :
    ∃ e, d.tables.get i = some e := by
  have hlt : i < d.tables.tsks.length :=
    (Finset.mem_union.mp hi).elim (h.established.bound i) (h.listening.bound i)
  obtain ⟨e, he, -⟩ := h.books.get_of_tsks (List.getElem?_eq_getElem hlt)
  exact ⟨e, he⟩

theorem Filing.one (h : Filing d L) {b b' : UInt8} {es es' : List (ℕ × SockEntry)}
    (hes : d.tables.bucket (.established b) = some es)
    (hes' : d.tables.bucket (.established b') = some es') {p p' : ℕ × SockEntry} (hp : p ∈ es)
    (hp' : p' ∈ es') (hsame : SameEnds p.2.tsk p'.2.tsk) : p.1 = p'.1 := by
  obtain ⟨es₀, hes₀, -, hmem⟩ := h.bucket_established b
  obtain ⟨es₁, hes₁, -, hmem'⟩ := h.bucket_established b'
  obtain rfl := Option.some.inj (hes.symm.trans hes₀)
  obtain rfl := Option.some.inj (hes'.symm.trans hes₁)
  obtain ⟨hfiled, hget, -⟩ := (hmem p).mp hp
  obtain ⟨hfiled', hget', -⟩ := (hmem' p').mp hp'
  exact h.classed.unique _ hfiled _ hfiled' _ _ (tsks_get hget) (tsks_get hget') hsame

theorem packets_demultiplexed (h : Reaches Demux.step Once (· = init) d) : d.Demultiplexes := by
  obtain ⟨L, hL⟩ := filing_of_reaches h
  exact ⟨fun _ => hL.inMemory, hL.bucket_established, hL.bucket_listen,
    fun _ _ _ _ hes hes' _ hp _ hp' => hL.one hes hes' hp hp', fun _ _ => hL.hashesRight,
    hL.lookup⟩

/-- A listener and three connections on its port, two of which have the same addresses and ports:
the second of these is refused until the first has been taken out. -/
def sharedPort : List DemuxEvent :=
  let listener := { allocTcpSock with state := .listen, skSport := 80 }
  let child := { allocTcpSock with
    state := .synRecv, skSip := 1, skDip := 2, skSport := 80, skDport := 4000 }
  [.alloc listener, .hash 0, .alloc child, .hash 1, .alloc { child with skDport := 4001 }, .hash 2,
    .alloc child, .hash 3, .unhash 1, .hash 3]

theorem sharedPort_demultiplexed :
    ((exec Demux.step Once init sharedPort).get (by decide +kernel)).Demultiplexes :=
  packets_demultiplexed (.exec_get init sharedPort (by decide +kernel))

end Results

end NetworkLab.Tcp
