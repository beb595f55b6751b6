import NetworkLab.TcpTables

/-!
# Reference counts of the sockets

A socket is referred to once for each list that holds it. Every operation on the lists keeps
the books: what the links say, what is counted and what has been recorded.
-/
namespace NetworkLab.Tcp
open LinkedLists

section Tally

/-- The number of nodes of the socket that are in a list of `L`. -/
noncomputable def tally (L : ListName → List ListNode) (i : ℕ) : ℕ :=
  {x | x ∈ nodesOf i ∧ Listed L x}.ncard

theorem owner_unique {x : ListNode} {i j : ℕ} (hi : x ∈ nodesOf i) (hj : x ∈ nodesOf j) :
    i = j := by
  simp only [nodesOf, Finset.mem_insert, Finset.mem_singleton] at hi hj
  rcases hi with rfl | rfl | rfl | rfl <;> simpa using hj

theorem head_notMem (l : ListName) (i : ℕ) : .head l ∉ nodesOf i := by simp [nodesOf]

variable {L L' : ListName → List ListNode} {x : ListNode} {i : ℕ}

theorem tally_insert (hx : x ∈ nodesOf i) (hnew : ¬Listed L x)
    (hl : ∀ y, Listed L' y ↔ y = x ∨ Listed L y) : tally L' i = tally L i + 1 := by
  have hset : {y | y ∈ nodesOf i ∧ Listed L' y} = insert x {y | y ∈ nodesOf i ∧ Listed L y} := by
    ext y
    simp only [Set.mem_ofPred_eq, Set.mem_insert_iff, hl]
    constructor
    · rintro ⟨hy, rfl | hlisted⟩
      · exact .inl rfl
      · exact .inr ⟨hy, hlisted⟩
    · rintro (rfl | ⟨hy, hlisted⟩)
      · exact ⟨hx, .inl rfl⟩
      · exact ⟨hy, .inr hlisted⟩
  have hfinite : {y | y ∈ nodesOf i ∧ Listed L y}.Finite :=
    (nodesOf i).finite_toSet.subset fun y hy => hy.1
  rw [tally, hset, Set.ncard_insert_of_notMem (fun hmem => hnew hmem.2) hfinite, tally]

theorem tally_other (hx : x ∈ nodesOf i) (hl : ∀ y, Listed L' y ↔ y = x ∨ Listed L y) {j : ℕ}
    (hj : j ≠ i) : tally L' j = tally L j := by
  unfold tally
  congr 1
  ext y
  simp only [Set.mem_ofPred_eq, hl]
  refine and_congr_right fun hy => or_iff_right ?_
  rintro rfl
  exact hj (owner_unique hy hx)

end Tally

section Books

/-- The lists, the counts and the record agree with `L`, but for the references that are
owed. -/
structure Books (owed : ℕ → ℕ) (s : Tables) (L : ListName → List ListNode) : Prop where
  lists : Lists s.links ListNode.head L
  owned : ∀ l, ∀ x ∈ L l, ∃ i < s.socks.length, x ∈ nodesOf i
  retrans : ∀ i < s.socks.length, Listed L (.retransTimer i)
  count : ∀ (i : ℕ) (e : SockEntry), s.socks[i]? = some e → e.refCnt = tally L i + owed i
  live : ∀ e ∈ s.socks, e.freed = false
  log : ∀ note ∈ s.log, note.Clean

variable {owed : ℕ → ℕ} {s t : Tables} {L : ListName → List ListNode} {i : ℕ} {e : SockEntry}

theorem get_eq_some : s.get i = some e ↔ s.socks[i]? = some e ∧ e.freed = false := by
  simp [Tables.get, Option.filter_eq_some_iff]

/-- The connections without what the tables keep about them. -/
def Tables.tsks (s : Tables) : List TcpSock := s.socks.map (·.tsk)

theorem tsks_set (he : s.socks[i]? = some e) {e' : SockEntry} (htsk : e'.tsk = e.tsk) :
    (s.socks.set i e').map (·.tsk) = s.tsks := by
  have hold : s.tsks[i]? = some e.tsk := by
    rw [Tables.tsks, List.getElem?_map, he]
    rfl
  obtain ⟨hi, heq⟩ := List.getElem?_eq_some_iff.mp hold
  rw [List.map_set, htsk, ← heq]
  exact List.set_getElem_self hi

theorem Books.places_eq (h : Books owed s L) (i : ℕ) : places s.links i = tally L i := by
  unfold places tally
  congr 1
  ext x
  simp only [Set.mem_ofPred_eq, h.lists.linked_iff]

theorem Books.referenced (h : Books 0 s L) : Referenced s := by
  refine ⟨fun i e he _ => ?_, fun i e he hfreed => ?_, h.log⟩
  · rw [h.places_eq, h.count i e he, Pi.zero_apply, Nat.cast_zero, add_zero]
  · rw [h.live e (List.mem_of_getElem? he)] at hfreed
    cases hfreed

/-- A reference that is owed is counted and has no list. -/
theorem Books.not_referenced (h : Books owed s L) (hi : i < s.tsks.length)
    (howed : owed i ≠ 0) : ¬Referenced s := by
  intro href
  rw [Tables.tsks, List.length_map] at hi
  have he := List.getElem?_eq_getElem hi
  have hcount := h.count i _ he
  rw [href.count i _ he (h.live _ (List.getElem_mem hi)), h.places_eq] at hcount
  omega

theorem Books.set (h : Books owed s L) (e' : SockEntry) (he : s.socks[i]? = some e)
    (hcnt : e'.refCnt = e.refCnt) (hlive : e'.freed = false) : Books owed (s.set i e') L := by
  refine ⟨h.lists, ?_, ?_, fun j e₁ hj => ?_, fun e₁ hmem => ?_, h.log⟩
  · simpa [Tables.set] using h.owned
  · simpa [Tables.set] using h.retrans
  · simp only [Tables.set, List.getElem?_set] at hj
    split_ifs at hj with hij hlt
    · cases hj
      rw [hcnt, ← hij]
      exact h.count i e he
    · exact h.count j e₁ hj
  · rcases List.mem_or_eq_of_mem_set hmem with hold | rfl
    · exact h.live e₁ hold
    · exact hlive

/-- `init_tcp_stack` leaves every list empty. -/
theorem books_init : Books 0 initTcpStack fun _ => [] := by
  refine ⟨⟨fun l => ⟨List.nodup_singleton _, ?_⟩, fun l l' hne => ?_⟩,
    fun l x hx => absurd hx List.not_mem_nil, fun i hi => absurd hi (Nat.not_lt_zero i),
    fun i e he => absurd he (by simp [initTcpStack]), fun e he => absurd he List.not_mem_nil,
    fun note hnote => absurd hnote List.not_mem_nil⟩
  · rw [Cycle.chain_coe_cons]
    exact .cons_cons ⟨rfl, rfl⟩ (.singleton _)
  · exact List.disjoint_singleton.mpr fun hmem =>
      hne (ListNode.head.inj (List.mem_singleton.mp hmem)).symm

/-- A node of the socket is put into a list, and the reference is counted. -/
theorem Books.refer (h : Books owed s L) (he : s.socks[i]? = some e) (e' : SockEntry)
    (hcnt : e'.refCnt = e.refCnt) (hlive : e'.freed = false) {m : Links ListNode}
    {L' : ListName → List ListNode} {x : ListNode} (hL : Lists m ListNode.head L')
    (hx : x ∈ nodesOf i) (hnew : ¬Listed L x) (hl : ∀ y, Listed L' y ↔ y = x ∨ Listed L y) :
    Books owed (s.refer i e' m) L' := by
  have hi : i < s.socks.length := (List.getElem?_eq_some_iff.mp he).1
  have hlen : (s.refer i e' m).socks.length = s.socks.length := List.length_set
  refine ⟨hL, fun l y hy => ?_, fun j hj => ?_, fun j e₁ hj => ?_, fun e₁ hmem => ?_, h.log⟩
  · rw [hlen]
    rcases (hl y).mp ⟨l, hy⟩ with rfl | ⟨l', hold⟩
    · exact ⟨i, hi, hx⟩
    · exact h.owned l' y hold
  · rw [hlen] at hj
    exact (hl _).mpr (.inr (h.retrans j hj))
  · simp only [Tables.refer, List.getElem?_set] at hj
    split_ifs at hj with hij
    · cases hj
      have hcount := h.count i e he
      rw [← hij, tally_insert hx hnew hl]
      show e'.refCnt + 1 = _
      omega
    · rw [tally_other hx hl fun heq => hij heq.symm]
      exact h.count j e₁ hj
  · rcases List.mem_or_eq_of_mem_set hmem with hold | rfl
    · exact h.live e₁ hold
    · exact hlive

theorem notMem_of_not_listed {x : ListNode} (hx : x ∈ nodesOf i) (hnew : ¬Listed L x)
    (l : ListName) : x ∉ .head l :: L l := by
  intro hmem
  rcases List.mem_cons.mp hmem with rfl | hold
  · exact head_notMem l i hx
  · exact hnew ⟨l, hold⟩

theorem Books.not_listed_new (h : Books owed s L) {x : ListNode}
    (hx : x ∈ nodesOf s.socks.length) : ¬Listed L x := by
  rintro ⟨l, hl⟩
  obtain ⟨j, hj, hown⟩ := h.owned l x hl
  have heq := owner_unique hx hown
  omega

theorem mem_timer_concat (x y : ListNode) : y ∈ L .timer ++ [x] ↔ y = x ∨ y ∈ L .timer := by
  rw [List.mem_append, List.mem_singleton, or_comm]

/-- A new socket is put last in the timer list. -/
theorem Books.extend (h : Books 0 s L) {tsk : TcpSock} (ht : s.alloc tsk = some t) :
    t.tsks = s.tsks ++ [tsk] ∧
      Books 0 t (Function.update L .timer (L .timer ++ [.retransTimer s.socks.length])) := by
  have hx : .retransTimer s.socks.length ∈ nodesOf s.socks.length := by simp [nodesOf]
  have hnew := h.not_listed_new hx
  obtain ⟨m, hm, hL⟩ := h.lists.addTail .timer (notMem_of_not_listed hx hnew)
  have hl := listed_update_of_mem_iff (mem_timer_concat (L := L) (.retransTimer s.socks.length))
  obtain ⟨links, hlinks, rfl⟩ := Option.map_eq_some_iff.mp ht
  obtain rfl : m = links := Option.some.inj (hm.symm.trans hlinks)
  refine ⟨List.map_append, hL, fun l y hy => ?_, fun j hj => ?_, fun j e hj => ?_,
    fun e hmem => ?_, h.log⟩
  · simp only [List.length_append, List.length_singleton]
    rcases (hl y).mp ⟨l, hy⟩ with rfl | ⟨l', hold⟩
    · exact ⟨s.socks.length, by omega, hx⟩
    · obtain ⟨i, hi, hown⟩ := h.owned l' y hold
      exact ⟨i, by omega, hown⟩
  · simp only [List.length_append, List.length_singleton] at hj
    by_cases hlast : j = s.socks.length
    · exact (hl _).mpr (.inl (by rw [hlast]))
    · exact (hl _).mpr (.inr (h.retrans j (by omega)))
  · simp only [List.getElem?_append] at hj
    split_ifs at hj with hlt
    · rw [tally_other hx hl (by omega)]
      exact h.count j e hj
    · obtain rfl : j = s.socks.length := by
        have hbound := (List.getElem?_eq_some_iff.mp hj).1
        simp only [List.length_singleton] at hbound
        omega
      rw [Nat.sub_self] at hj
      cases hj
      have hnone : tally L s.socks.length = 0 := by
        have hempty : {x | x ∈ nodesOf s.socks.length ∧ Listed L x} = ∅ :=
          Set.eq_empty_of_forall_notMem fun y hy => h.not_listed_new hy.1 hy.2
        rw [tally, hempty, Set.ncard_empty]
      rw [tally_insert hx hnew hl, hnone]
      rfl
  · rcases List.mem_append.mp hmem with hold | hone
    · exact h.live e hold
    · rw [List.mem_singleton.mp hone]

/-- A new socket is referred to by its retransmission timer. -/
theorem Books.alloc (h : Books 0 s L) {tsk : TcpSock} (ht : s.alloc tsk = some t) :
    t.tsks = s.tsks ++ [tsk] ∧ ∃ L', Books 0 t L' ∧
      ∀ y, Listed L' y ↔ y = .retransTimer s.socks.length ∨ Listed L y := by
  obtain ⟨htsks, hbooks⟩ := h.extend ht
  exact ⟨htsks, _, hbooks, listed_update_of_mem_iff (mem_timer_concat _)⟩

/-- A node is deleted from a list that holds it, and the reference is owed. -/
theorem Books.erase (h : Books owed s L) {x : ListNode} {l : ListName} (hmem : x ∈ L l)
    (hown : x ∈ nodesOf i) (hne : x ≠ .retransTimer i) (ht : s.unlink x = some t) :
    t.socks = s.socks ∧ s.links.delete x = some t.links ∧
      Books (owed + Pi.single i 1) t (Function.update L l ((L l).erase x)) := by
  obtain ⟨m, hm, hL⟩ := h.lists.delete hmem
  have hl := h.lists.listed_erase_iff hmem
  obtain ⟨links, hlinks, rfl⟩ := Option.map_eq_some_iff.mp ht
  obtain rfl : m = links := Option.some.inj (hm.symm.trans hlinks)
  have hback : ∀ y, Listed L y ↔ y = x ∨ Listed (Function.update L l ((L l).erase x)) y := by
    intro y
    rw [hl]
    by_cases heq : y = x
    · exact iff_of_true (heq ▸ ⟨l, hmem⟩) (.inl heq)
    · exact ⟨fun hy => .inr ⟨heq, hy⟩, fun hy => (hy.resolve_left heq).2⟩
  have hgone : ¬Listed (Function.update L l ((L l).erase x)) x := fun hy => ((hl x).mp hy).1 rfl
  refine ⟨rfl, hlinks, hL, fun l' y hy => ?_, fun j hj => ?_, fun j e hj => ?_, h.live,
    fun note hnote => ?_⟩
  · obtain ⟨l'', hold⟩ := ((hl y).mp ⟨l', hy⟩).2
    exact h.owned l'' y hold
  · refine (hl _).mpr ⟨fun heq => ?_, h.retrans j hj⟩
    have hj' : ListNode.retransTimer j ∈ nodesOf j := by simp [nodesOf]
    have hij := owner_unique (heq ▸ hown) hj'
    exact hne (hij ▸ heq.symm)
  · have hcount := h.count j e hj
    rw [Pi.add_apply]
    by_cases hij : j = i
    · subst hij
      have htally := tally_insert hown hgone hback
      rw [Pi.single_eq_same]
      omega
    · rw [← tally_other hown hback hij, Pi.single_eq_of_ne hij]
      omega
  · rcases List.mem_append.mp hnote with hold | hlast
    · exact h.log note hold
    · rw [List.mem_singleton.mp hlast]
      refine ⟨h.lists.linked_iff.mpr ⟨l, hmem⟩, fun l' y hy hold => ?_⟩
      rw [(h.lists.ring l').holds_iff] at hold
      rw [(hL.ring l').holds_iff]
      by_cases heq : l' = l
      · subst heq
        rw [Function.update_self]
        exact List.mem_erase_of_ne hy |>.mpr hold
      · rw [Function.update_of_ne heq]
        exact hold

theorem Books.unlink (h : Books owed s L) {x : ListNode} (hx : Listed L x) (hown : x ∈ nodesOf i)
    (hne : x ≠ .retransTimer i) (ht : s.unlink x = some t) :
    t.socks = s.socks ∧ ∃ L', Books (owed + Pi.single i 1) t L' ∧
      ∀ y, Listed L' y ↔ y ≠ x ∧ Listed L y := by
  obtain ⟨l, hmem⟩ := hx
  obtain ⟨hsocks, -, hbooks⟩ := h.erase hmem hown hne ht
  exact ⟨hsocks, _, hbooks, h.lists.listed_erase_iff hmem⟩

/-- A reference that is owed is dropped; another is left by the retransmission timer. -/
theorem Books.free (h : Books (owed + Pi.single i 1) s L) (ht : s.freeTcpSock i = some t) :
    t.tsks = s.tsks ∧ t.links = s.links ∧ Books owed t L := by
  obtain ⟨e, hget, hdrop⟩ := Option.bind_eq_some_iff.mp ht
  obtain ⟨he, hlive⟩ := get_eq_some.mp hget
  have hi : i < s.socks.length := (List.getElem?_eq_some_iff.mp he).1
  have hleft : 0 < tally L i := by
    refine Set.ncard_pos ((nodesOf i).finite_toSet.subset fun y hy => hy.1) |>.mpr ?_
    exact ⟨.retransTimer i, by simp [nodesOf], h.retrans i hi⟩
  have hcount := h.count i e he
  rw [Pi.add_apply, Pi.single_eq_same] at hcount
  have hmany : ¬e.refCnt - 1 ≤ 0 := by omega
  rw [if_neg hmany] at hdrop
  cases hdrop
  have hlen : (s.set i { e with refCnt := e.refCnt - 1 }).socks.length = s.socks.length :=
    List.length_set
  refine ⟨tsks_set he rfl, rfl, h.lists, ?_, ?_, fun j e₁ hj => ?_, fun e₁ hmem => ?_,
    fun note hnote => ?_⟩
  · rw [hlen]
    exact h.owned
  · rw [hlen]
    exact h.retrans
  · simp only [Tables.set, List.getElem?_set] at hj
    split_ifs at hj with hij
    · cases hj
      show e.refCnt - 1 = _
      rw [← hij]
      omega
    · have hcount' := h.count j e₁ hj
      rw [Pi.add_apply, Pi.single_eq_of_ne fun heq => hij heq.symm] at hcount'
      exact hcount'
  · rcases List.mem_or_eq_of_mem_set hmem with hold | rfl
    · exact h.live e₁ hold
    · exact hlive
  · rcases List.mem_append.mp hnote with hold | hlast
    · exact h.log note hold
    · rw [List.mem_singleton.mp hlast]
      exact iff_of_false Bool.false_ne_true (by omega)

/-- A node is deleted from its list and the reference is dropped. -/
theorem Books.remove (h : Books owed s L) {x : ListNode} {l : ListName} (hmem : x ∈ L l)
    (hown : x ∈ nodesOf i) (hne : x ≠ .retransTimer i)
    (ht : (s.unlink x).bind (·.freeTcpSock i) = some t) :
    t.tsks = s.tsks ∧ s.links.delete x = some t.links ∧
      Books owed t (Function.update L l ((L l).erase x)) := by
  obtain ⟨u, hu, hfree⟩ := Option.bind_eq_some_iff.mp ht
  obtain ⟨hsocks, hdelete, hbooks⟩ := h.erase hmem hown hne hu
  obtain ⟨htsks, hlinks, hbooks'⟩ := hbooks.free hfree
  refine ⟨?_, hlinks ▸ hdelete, hbooks'⟩
  rw [htsks, Tables.tsks, hsocks, Tables.tsks]

theorem Books.drop (h : Books owed s L) {x : ListNode} (hx : Listed L x) (hown : x ∈ nodesOf i)
    (hne : x ≠ .retransTimer i) (ht : (s.unlink x).bind (·.freeTcpSock i) = some t) :
    t.tsks = s.tsks ∧ ∃ L', Books owed t L' ∧ ∀ y, Listed L' y ↔ y ≠ x ∧ Listed L y := by
  obtain ⟨l, hmem⟩ := hx
  obtain ⟨htsks, -, hbooks⟩ := h.remove hmem hown hne ht
  exact ⟨htsks, _, hbooks, h.lists.listed_erase_iff hmem⟩

/-- A node is put first in a list. -/
theorem Books.push (h : Books owed s L) (hget : s.get i = some e) {x : ListNode}
    (hx : x ∈ nodesOf i) (hnew : ¬Listed L x) {l : ListName} {links : Links ListNode}
    (hlinks : s.links.addHead x (.head l) = some links) :
    (s.refer i e links).tsks = s.tsks ∧
      Books owed (s.refer i e links) (Function.update L l (x :: L l)) := by
  obtain ⟨he, hlive⟩ := get_eq_some.mp hget
  obtain ⟨m, hm, hL⟩ := h.lists.addHead l (notMem_of_not_listed hx hnew)
  obtain rfl : m = links := Option.some.inj (hm.symm.trans hlinks)
  have hl := listed_update_of_mem_iff (L := L) (h := l) (x := x) fun _ => List.mem_cons
  exact ⟨tsks_set he rfl, h.refer he e rfl hlive hL hx hnew hl⟩

theorem Books.tcpBindHash (h : Books owed s L) (hnew : ¬Listed L (.bindHashList i))
    (ht : s.tcpBindHash i = some t) :
    t.tsks = s.tsks ∧ ∃ L', Books owed t L' ∧
      ∀ y, Listed L' y ↔ y = .bindHashList i ∨ Listed L y := by
  obtain ⟨e, hget, hadd⟩ := Option.bind_eq_some_iff.mp ht
  obtain ⟨links, hlinks, hsome⟩ := Option.bind_eq_some_iff.mp hadd
  cases hsome
  obtain ⟨htsks, hbooks⟩ := h.push hget (by simp [nodesOf]) hnew hlinks
  exact ⟨htsks, _, hbooks, listed_update_of_mem_iff fun _ => List.mem_cons⟩

/-- `tcp_hash` puts the socket into one of its tables or leaves everything as it is. -/
theorem Books.tcpHash (h : Books owed s L) (hnew : ¬Listed L (.hashList i))
    (ht : s.tcpHash i = some t) :
    t.tsks = s.tsks ∧ ∃ L', Books owed t L' ∧ ∀ y, Listed L y → Listed L' y := by
  obtain ⟨e, hget, hhash⟩ := Option.bind_eq_some_iff.mp ht
  have hadd {l : ListName} (hl : (do
      let links ← s.links.addHead (.hashList i) (.head l)
      some (s.refer i e links)) = some t) :
      t.tsks = s.tsks ∧ ∃ L', Books owed t L' ∧ ∀ y, Listed L y → Listed L' y := by
    obtain ⟨links, hlinks, hsome⟩ := Option.bind_eq_some_iff.mp hl
    cases hsome
    obtain ⟨htsks, hbooks⟩ := h.push hget (by simp [nodesOf]) hnew hlinks
    exact ⟨htsks, _, hbooks, fun y hy =>
      (listed_update_of_mem_iff (fun _ => List.mem_cons) y).mpr (.inr hy)⟩
  split at hhash
  · cases hhash
    exact ⟨rfl, L, h, fun _ => id⟩
  · exact hadd hhash
  · obtain ⟨es, -, hes⟩ := Option.bind_eq_some_iff.mp hhash
    split_ifs at hes
    · cases hes
      exact ⟨rfl, L, h, fun _ => id⟩
    · exact hadd hes

/-- The removal of a node that is in a list; a node that looks unlinked stays. -/
theorem Books.unhash (h : Books owed s L) {x : ListNode} (hx : Listed L x) (hown : x ∈ nodesOf i)
    (hne : x ≠ .retransTimer i)
    (ht : (if s.links.next x = some x then some s else (s.unlink x).bind (·.freeTcpSock i)) =
      some t) :
    t.tsks = s.tsks ∧ ∃ L', Books owed t L' ∧ ∀ y, y ≠ x → (Listed L' y ↔ Listed L y) := by
  split_ifs at ht
  · cases ht
    exact ⟨rfl, L, h, fun _ _ => Iff.rfl⟩
  · obtain ⟨htsks, L', hL', hlisted⟩ := h.drop hx hown hne ht
    exact ⟨htsks, L', hL', fun y hy => (hlisted y).trans (and_iff_right hy)⟩

theorem Books.tcpBindUnhash (h : Books owed s L) (hx : Listed L (.bindHashList i))
    (ht : s.tcpBindUnhash i = some t) :
    t.tsks = s.tsks ∧ ∃ L', Books owed t L' ∧
      ∀ y, y ≠ .bindHashList i → (Listed L' y ↔ Listed L y) :=
  h.unhash hx (by simp [nodesOf]) nofun ht

theorem Books.tcpUnhash (h : Books owed s L) (hx : Listed L (.hashList i))
    (ht : s.tcpUnhash i = some t) :
    t.tsks = s.tsks ∧ ∃ L', Books owed t L' ∧
      ∀ y, y ≠ .hashList i → (Listed L' y ↔ Listed L y) :=
  h.unhash hx (by simp [nodesOf]) nofun ht

theorem Books.tcpSetTimewaitTimer (h : Books owed s L) (hnew : ¬Listed L (.timewait i))
    (ht : s.tcpSetTimewaitTimer i = some t) :
    t.tsks = s.tsks ∧ ∃ L', Books owed t L' ∧ ∀ y, Listed L y → Listed L' y := by
  obtain ⟨e, hget, hadd⟩ := Option.bind_eq_some_iff.mp ht
  obtain ⟨links, hlinks, hsome⟩ := Option.bind_eq_some_iff.mp hadd
  cases hsome
  obtain ⟨he, hlive⟩ := get_eq_some.mp hget
  have hx : .timewait i ∈ nodesOf i := by simp [nodesOf]
  obtain ⟨m, hm, hL⟩ := h.lists.addTail .timer (notMem_of_not_listed hx hnew)
  obtain rfl : m = links := Option.some.inj (hm.symm.trans hlinks)
  have hl := listed_update_of_mem_iff (mem_timer_concat (L := L) (.timewait i))
  have hbooks := h.refer he { e with timeout := Tables.tcpTimewaitTimeout } rfl hlive hL hx hnew hl
  exact ⟨tsks_set he rfl, _, hbooks, fun y hy => (hl y).mpr (.inr hy)⟩

end Books

section Lookup

variable {s : Tables} {l : ListName}

theorem mem_entries {xs : List ListNode} {es : List (ℕ × SockEntry)}
    (h : s.entries l xs = some es) {p : ℕ × SockEntry} (hp : p ∈ es) :
    ∃ x ∈ xs, s.entryOf l x = some p := by
  induction xs generalizing es with
  | nil =>
    cases h
    cases hp
  | cons x xs ih =>
    obtain ⟨e, he, hrest⟩ := Option.bind_eq_some_iff.mp h
    obtain ⟨rest, hxs, hsome⟩ := Option.bind_eq_some_iff.mp hrest
    cases hsome
    rcases List.mem_cons.mp hp with rfl | hmem
    · exact ⟨x, List.mem_cons_self, he⟩
    · obtain ⟨y, hy, hentry⟩ := ih hxs hmem
      exact ⟨y, List.mem_cons_of_mem x hy, hentry⟩

/-- A socket found in a bucket of these tables is in it by its `hash_list`. -/
theorem linked_of_mem_bucket (hl : ∀ (x : ListNode) (p : ℕ × SockEntry),
      s.entryOf l x = some p → x = .hashList p.1)
    {es : List (ℕ × SockEntry)} (h : s.bucket l = some es) {p : ℕ × SockEntry} (hp : p ∈ es) :
    Linked s.links ListNode.head (.hashList p.1) := by
  obtain ⟨xs, hxs, hes⟩ := Option.bind_eq_some_iff.mp h
  obtain ⟨x, hx, hentry⟩ := mem_entries hes hp
  rw [← hl x p hentry]
  exact ⟨l, holds_of_mem_traverse hxs hx⟩

theorem entryOf_hashList (hl : (∃ i, l = .established i) ∨ ∃ i, l = .listen i) (x : ListNode)
    (p : ℕ × SockEntry) (h : s.entryOf l x = some p) : x = .hashList p.1 := by
  rcases hl with ⟨i, rfl⟩ | ⟨i, rfl⟩
  all_goals
    cases x with
    | hashList j =>
      obtain ⟨e, -, rfl⟩ := Option.map_eq_some_iff.mp h
      rfl
    | head | bindHashList | timewait | retransTimer => cases h

theorem lookup_linked {cb : TcpCb} {i : ℕ} (h : s.lookup cb = some (some i)) :
    Linked s.links ListNode.head (.hashList i) := by
  obtain ⟨es, hes, hfind⟩ := Option.bind_eq_some_iff.mp h
  split at hfind
  next e he =>
    cases hfind
    exact linked_of_mem_bucket (entryOf_hashList (.inl ⟨_, rfl⟩)) hes (List.mem_of_find?_eq_some he)
  next =>
    obtain ⟨ls, hls, hsome⟩ := Option.bind_eq_some_iff.mp hfind
    obtain ⟨e, he, rfl⟩ := Option.map_eq_some_iff.mp (Option.some.inj hsome)
    exact linked_of_mem_bucket (entryOf_hashList (.inr ⟨_, rfl⟩)) hls (List.mem_of_find?_eq_some he)

end Lookup

end NetworkLab.Tcp
