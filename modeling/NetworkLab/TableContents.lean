import NetworkLab.ReferenceCounts

/-!
# Which sockets a table holds

A table files the sockets of a set by their hash values: the list at a hash value holds the nodes
of the sockets with this value. A loop over a bucket visits these sockets.
-/
namespace NetworkLab.Tcp
open LinkedLists

section Keys

/-- The hash value of a socket in the established table. -/
def tupleHash (tsk : TcpSock) : UInt8 :=
  tcpHashFunction tsk.skSip tsk.skDip tsk.skSport tsk.skDport

/-- The hash value of a socket in the listen table and in the bind table. -/
def portHash (tsk : TcpSock) : UInt8 := tcpHashFunction 0 0 tsk.skSport 0

theorem tupleHash_eq {tsk tsk' : TcpSock} (h : Tables.SameEnds tsk tsk') :
    tupleHash tsk = tupleHash tsk' := by
  obtain ⟨hsip, hdip, hsport, hdport⟩ := h
  rw [tupleHash, hsip, hdip, hsport, hdport, tupleHash]

theorem portHash_eq {tsk tsk' : TcpSock} (h : Tables.SameEnds tsk tsk') :
    portHash tsk = portHash tsk' := by
  rw [portHash, h.2.2.1, portHash]

/-- A packet is looked up where the socket with its addresses and ports has been filed. -/
theorem tupleHash_of_sameTuple {tsk : TcpSock} {cb : TcpCb} (h : SameTuple tsk cb) :
    tupleHash tsk = tcpHashFunction cb.daddr cb.saddr cb.dport cb.sport := by
  obtain ⟨hdaddr, hsaddr, hdport, hsport⟩ := h
  rw [tupleHash, hdaddr, hsaddr, hdport, hsport]

theorem established_injective : Function.Injective ListName.established :=
  fun _ _ => ListName.established.inj

theorem listen_injective : Function.Injective ListName.listen := fun _ _ => ListName.listen.inj

theorem hashList_injective : Function.Injective ListNode.hashList :=
  fun _ _ => ListNode.hashList.inj

theorem bind_injective : Function.Injective ListName.bind := fun _ _ => ListName.bind.inj

theorem bindHashList_injective : Function.Injective ListNode.bindHashList :=
  fun _ _ => ListNode.bindHashList.inj

end Keys

section Contents

/-- The lists of the table hold the nodes of these sockets, each in the list of its hash value. -/
structure Filed (tsks : List TcpSock) (L : ListName → List ListNode) (list : UInt8 → ListName)
    (node : ℕ → ListNode) (hash : TcpSock → UInt8) (members : Finset ℕ) : Prop where
  bound : ∀ i ∈ members, i < tsks.length
  mem_iff : ∀ b x, x ∈ L (list b) ↔
    ∃ i ∈ members, ∃ tsk, tsks[i]? = some tsk ∧ hash tsk = b ∧ x = node i

variable {tsks : List TcpSock} {L : ListName → List ListNode} {list : UInt8 → ListName}
  {node : ℕ → ListNode} {hash : TcpSock → UInt8} {members : Finset ℕ} {i : ℕ} {tsk : TcpSock}

namespace Filed

theorem listed (h : Filed tsks L list node hash members) (hi : i ∈ members) :
    ∃ tsk, tsks[i]? = some tsk ∧ node i ∈ L (list (hash tsk)) := by
  have hlt := h.bound i hi
  refine ⟨tsks[i], List.getElem?_eq_getElem hlt, ?_⟩
  exact (h.mem_iff _ _).mpr ⟨i, hi, tsks[i], List.getElem?_eq_getElem hlt, rfl, rfl⟩

/-- A list that is not one of the table is changed. -/
theorem update (h : Filed tsks L list node hash members) {l : ListName} (hl : ∀ b, list b ≠ l)
    (xs : List ListNode) : Filed tsks (Function.update L l xs) list node hash members := by
  refine ⟨h.bound, fun b x => ?_⟩
  rw [Function.update_of_ne (hl b)]
  exact h.mem_iff b x

theorem insert (h : Filed tsks L list node hash members) (hlist : Function.Injective list)
    (htsk : tsks[i]? = some tsk) :
    Filed tsks (Function.update L (list (hash tsk)) (node i :: L (list (hash tsk)))) list node hash
      (insert i members) := by
  refine ⟨fun j hj => ?_, fun b x => ?_⟩
  · rcases Finset.mem_insert.mp hj with rfl | hold
    · exact (List.getElem?_eq_some_iff.mp htsk).1
    · exact h.bound j hold
  · have hold := h.mem_iff b x
    by_cases hb : b = hash tsk
    · subst hb
      rw [Function.update_self, List.mem_cons, hold]
      constructor
      · rintro (rfl | ⟨j, hj, hfiled⟩)
        · exact ⟨i, Finset.mem_insert_self i members, tsk, htsk, rfl, rfl⟩
        · exact ⟨j, Finset.mem_insert_of_mem hj, hfiled⟩
      · rintro ⟨j, hj, hfiled⟩
        rcases Finset.mem_insert.mp hj with rfl | hj
        · exact .inl hfiled.choose_spec.2.2
        · exact .inr ⟨j, hj, hfiled⟩
    · rw [Function.update_of_ne (hlist.ne hb), hold]
      constructor
      · rintro ⟨j, hj, hfiled⟩
        exact ⟨j, Finset.mem_insert_of_mem hj, hfiled⟩
      · rintro ⟨j, hj, tsk', htsk', hhash, hx⟩
        rcases Finset.mem_insert.mp hj with rfl | hj
        · obtain rfl := Option.some.inj (htsk.symm.trans htsk')
          exact absurd hhash.symm hb
        · exact ⟨j, hj, tsk', htsk', hhash, hx⟩

theorem erase (h : Filed tsks L list node hash members) (hlist : Function.Injective list)
    (hnode : Function.Injective node) (htsk : tsks[i]? = some tsk)
    (hnodup : (L (list (hash tsk))).Nodup) :
    Filed tsks (Function.update L (list (hash tsk)) ((L (list (hash tsk))).erase (node i))) list
      node hash (members.erase i) := by
  refine ⟨fun j hj => h.bound j (Finset.mem_of_mem_erase hj), fun b x => ?_⟩
  have hold := h.mem_iff b x
  by_cases hb : b = hash tsk
  · subst hb
    rw [Function.update_self, hnodup.mem_erase_iff, hold]
    constructor
    · rintro ⟨hne, j, hj, tsk', htsk', hhash, rfl⟩
      exact ⟨j, Finset.mem_erase.mpr ⟨fun heq => hne (congrArg node heq), hj⟩, tsk', htsk', hhash,
        rfl⟩
    · rintro ⟨j, hj, tsk', htsk', hhash, rfl⟩
      obtain ⟨hne, hj⟩ := Finset.mem_erase.mp hj
      exact ⟨hnode.ne hne, j, hj, tsk', htsk', hhash, rfl⟩
  · rw [Function.update_of_ne (hlist.ne hb), hold]
    constructor
    · rintro ⟨j, hj, tsk', htsk', hhash, hx⟩
      refine ⟨j, Finset.mem_erase.mpr ⟨?_, hj⟩, tsk', htsk', hhash, hx⟩
      rintro rfl
      obtain rfl := Option.some.inj (htsk.symm.trans htsk')
      exact hb hhash.symm
    · rintro ⟨j, hj, hfiled⟩
      exact ⟨j, Finset.mem_of_mem_erase hj, hfiled⟩

/-- A socket is changed, which keeps its hash value if it is filed. -/
theorem set (h : Filed tsks L list node hash members) (htsk : tsks[i]? = some tsk) {tsk' : TcpSock}
    (hhash : i ∈ members → hash tsk' = hash tsk) :
    Filed (tsks.set i tsk') L list node hash members := by
  refine ⟨fun j hj => ?_, fun b x => (h.mem_iff b x).trans ?_⟩
  · rw [List.length_set]
    exact h.bound j hj
  refine exists_congr fun j => and_congr_right fun hj => ?_
  by_cases hij : i = j
  · subst hij
    rw [List.getElem?_set_self (h.bound i hj), htsk]
    constructor
    · rintro ⟨tsk₀, heq, hb, hx⟩
      obtain rfl := Option.some.inj heq
      exact ⟨tsk', rfl, (hhash hj).trans hb, hx⟩
    · rintro ⟨tsk₀, heq, hb, hx⟩
      obtain rfl := Option.some.inj heq
      exact ⟨tsk, rfl, (hhash hj).symm.trans hb, hx⟩
  · rw [List.getElem?_set_ne hij]

theorem append (h : Filed tsks L list node hash members) (tsk : TcpSock) :
    Filed (tsks ++ [tsk]) L list node hash members := by
  refine ⟨fun j hj => ?_, fun b x => (h.mem_iff b x).trans ?_⟩
  · rw [List.length_append]
    exact Nat.lt_add_right _ (h.bound j hj)
  · refine exists_congr fun j => and_congr_right fun hj => ?_
    rw [List.getElem?_append_left (h.bound j hj)]

end Filed

end Contents

section Buckets

variable {owed : ℕ → ℕ} {s : Tables} {L : ListName → List ListNode} {list : UInt8 → ListName}
  {node : ℕ → ListNode} {hash : TcpSock → UInt8} {members : Finset ℕ} {i : ℕ} {tsk : TcpSock}

theorem tsks_eq_some_iff :
    s.tsks[i]? = some tsk ↔ ∃ e, s.socks[i]? = some e ∧ e.tsk = tsk := by
  rw [Tables.tsks, List.getElem?_map, Option.map_eq_some_iff]

theorem get_set_self {e : SockEntry} (he : s.get i = some e) (e' : SockEntry)
    (hlive : e'.freed = false) :
    (s.set i e').get i = some e' := by
  obtain ⟨hlt, -⟩ := List.getElem?_eq_some_iff.mp (get_eq_some.mp he).1
  exact get_eq_some.mpr ⟨List.getElem?_set_self hlt, hlive⟩

theorem tsks_get {s : Tables} (he : s.get i = some e) : s.tsks[i]? = some e.tsk :=
  tsks_eq_some_iff.mpr ⟨e, (get_eq_some.mp he).1, rfl⟩

theorem Books.get_of_tsks (h : Books owed s L) (htsk : s.tsks[i]? = some tsk) :
    ∃ e, s.get i = some e ∧ e.tsk = tsk := by
  obtain ⟨e, he, htsk⟩ := tsks_eq_some_iff.mp htsk
  exact ⟨e, get_eq_some.mpr ⟨he, h.live e (List.mem_of_getElem? he)⟩, htsk⟩

/-- The sockets around the nodes of a list. -/
theorem exists_entries {l : ListName} (hentry : ∀ i, s.entryOf l (node i) = (s.get i).map (i, ·))
    {is : List ℕ} (his : ∀ i ∈ is, ∃ e, s.get i = some e) :
    ∃ es, s.entries l (is.map node) = some es ∧ es.map Prod.fst = is ∧
      ∀ p ∈ es, s.get p.1 = some p.2 := by
  induction is with
  | nil => exact ⟨[], rfl, rfl, fun p hp => absurd hp List.not_mem_nil⟩
  | cons i is ih =>
    obtain ⟨e, he⟩ := his i List.mem_cons_self
    obtain ⟨es, hes, hfst, hget⟩ := ih fun j hj => his j (List.mem_cons_of_mem i hj)
    refine ⟨(i, e) :: es, ?_, by rw [List.map_cons, hfst], fun p hp => ?_⟩
    · rw [List.map_cons, Tables.entries, hentry, he, hes]
      rfl
    · rcases List.mem_cons.mp hp with rfl | hp
      · exact he
      · exact hget p hp

/-- The sockets that a loop over a bucket of the table visits. -/
theorem Filed.bucket (h : Filed s.tsks L list node hash members) (hbooks : Books owed s L)
    (hnode : Function.Injective node) {b : UInt8}
    (hentry : ∀ i, s.entryOf (list b) (node i) = (s.get i).map (i, ·)) :
    ∃ es, s.bucket (list b) = some es ∧ (es.map Prod.fst).Nodup ∧
      ∀ p, p ∈ es ↔ p.1 ∈ members ∧ s.get p.1 = some p.2 ∧ hash p.2.tsk = b := by
  have hnodes : L (list b) ∈ Set.range (List.map node) := by
    rw [Set.range_list_map]
    intro x hx
    obtain ⟨i, -, tsk, -, -, rfl⟩ := (h.mem_iff b x).mp hx
    exact ⟨i, rfl⟩
  obtain ⟨is, his⟩ := hnodes
  have hmem (i : ℕ) : i ∈ is ↔ i ∈ members ∧ ∃ e, s.get i = some e ∧ hash e.tsk = b := by
    rw [← List.mem_map_of_injective hnode, his, h.mem_iff]
    constructor
    · rintro ⟨j, hj, tsk, htsk, hb, heq⟩
      obtain rfl := hnode heq
      obtain ⟨e, he, rfl⟩ := hbooks.get_of_tsks htsk
      exact ⟨hj, e, he, hb⟩
    · rintro ⟨hi, e, he, hb⟩
      exact ⟨i, hi, e.tsk, tsks_eq_some_iff.mpr ⟨e, (get_eq_some.mp he).1, rfl⟩, hb, rfl⟩
  have hnodup : is.Nodup := by
    have hring := (List.nodup_cons.mp (hbooks.lists.ring (list b)).nodup).2
    rw [← his] at hring
    exact hring.of_map node
  have hlen : (L (list b)).length ≤ 2 * s.socks.length := by
    have hsub : is ⊆ List.range s.socks.length := fun i hi => by
      obtain ⟨-, e, he, -⟩ := (hmem i).mp hi
      exact List.mem_range.mpr (List.getElem?_eq_some_iff.mp (get_eq_some.mp he).1).1
    have hle := (List.subperm_of_subset hnodup hsub).length_le
    rw [List.length_range] at hle
    rw [← his, List.length_map]
    omega
  have hsocks : ∀ i ∈ is, ∃ e, s.get i = some e := fun i hi => by
    obtain ⟨-, e, he, -⟩ := (hmem i).mp hi
    exact ⟨e, he⟩
  obtain ⟨es, hes, hfst, hget⟩ := exists_entries hentry hsocks
  refine ⟨es, ?_, hfst ▸ hnodup, fun p => ?_⟩
  · rw [Tables.bucket, hbooks.lists.traverse (list b) hlen, Option.bind_some, ← his, hes]
  · constructor
    · intro hp
      have hi : p.1 ∈ is := hfst ▸ List.mem_map_of_mem hp
      obtain ⟨hmember, e, he, hb⟩ := (hmem p.1).mp hi
      obtain rfl := Option.some.inj (he.symm.trans (hget p hp))
      exact ⟨hmember, he, hb⟩
    · rintro ⟨hmember, he, hb⟩
      have hi : p.1 ∈ es.map Prod.fst := hfst ▸ (hmem p.1).mpr ⟨hmember, p.2, he, hb⟩
      obtain ⟨q, hq, heq⟩ := List.mem_map.mp hi
      have hsame : q.2 = p.2 := by
        have hgot := hget q hq
        rw [heq, he] at hgot
        exact (Option.some.inj hgot).symm
      rwa [← Prod.ext heq hsame]

end Buckets

end NetworkLab.Tcp
