import NetworkLab.MospfRoutes
import NetworkLab.MospfShortest

/-!
# Where the routes of `calc_path` come from

Every route of the table that `calc_path` leaves is one of the kernel's, that of a neighbour, that
of an edge, or that of a network which a router advertises and which no router of the database is
on. For each network of the last kind, and each row with a distance, there is such a route by the
gateway of the row.
-/
namespace NetworkLab.Mospf

variable {ι : Type*}

section Model

/-- The advertisement of a network that `calc_path` takes for one of hosts. -/
def HostLsa (m : Mtx ι) (routerId : UInt32) (lsa : MospfLsa) : Prop :=
  lsa.rid ≠ routerId ∧ rowOf m.sup m.record lsa.rid = none

/-- Where a route may come from. -/
inductive Origin (m : Mtx ι) (routerId : UInt32) (kernel : List (RtEntry ι))
    (ifaceList : List (ι × List MospfNbr)) (record : Row → MtxMap ι) (entry : RtEntry ι) : Prop
  | kernel (old : RtEntry ι) (hold : old ∈ kernel) (hdest : entry.dest = old.dest)
      (hmask : entry.mask = old.mask)
  | neighbour (face : ι × List MospfNbr) (hface : face ∈ ifaceList) (nbr : MospfNbr)
      (hnbr : nbr ∈ face.2) (hdest : entry.dest = nbr.nbrIp &&& nbr.nbrMask)
      (hmask : entry.mask = nbr.nbrMask)
  | edge (i j : Row) (hedge : m.edge i j = true)
      (hdest : entry.dest = (m.pathMap i j).network &&& (m.pathMap i j).mask)
      (hmask : entry.mask = (m.pathMap i j).mask)
  | host (i : Row) (hdist : (record i).dist ≠ 0) (lsa : MospfLsa)
      (hlsa : lsa ∈ (m.record i).dbEntry.array) (hhost : HostLsa m routerId lsa)
      (hdest : entry.dest = lsa.mask &&& lsa.network) (hmask : entry.mask = lsa.mask)
      (hgw : entry.gw = (record i).gw)

/-- The route for a network of hosts behind a row. -/
def hostEntry (row : MtxMap ι) (lsa : MospfLsa) : RtEntry ι :=
  ⟨lsa.mask &&& lsa.network, lsa.mask, row.gw, row.iface⟩

/-- The rows keep their routers, and routes have an origin. -/
structure Traced (m : Mtx ι) (routerId : UInt32) (kernel : List (RtEntry ι))
    (ifaceList : List (ι × List MospfNbr)) (c : Calc ι) : Prop where
  valid : ∀ i, (c.record i).valid = (m.record i).valid
  dbEntry : ∀ i, (c.record i).dbEntry = (m.record i).dbEntry
  inRows : ∀ i, (c.record i).dist ≠ 0 → i ∈ rows m.sup
  origin : ∀ entry ∈ c.rtable, Origin m routerId kernel ifaceList c.record entry

/-- The rows that are so far away have routes to their networks of hosts. -/
def HostRoutes (m : Mtx ι) (routerId : UInt32) (c : Calc ι) (i : Row) : Prop :=
  ∀ lsa ∈ (m.record i).dbEntry.array, HostLsa m routerId lsa →
    hostEntry (c.record i) lsa ∈ c.rtable

end Model

section Steps

variable {m : Mtx ι} {routerId : UInt32} {kernel : List (RtEntry ι)}
  {ifaceList : List (ι × List MospfNbr)} {c c' : Calc ι} {entry : RtEntry ι}

/-- A route keeps its origin as long as rows with a distance stay as they are. -/
theorem Origin.mono {record record' : Row → MtxMap ι}
    (h : Origin m routerId kernel ifaceList record entry)
    (hkept : ∀ i, (record i).dist ≠ 0 → record' i = record i) :
    Origin m routerId kernel ifaceList record' entry := by
  cases h with
  | kernel old hold hdest hmask => exact .kernel old hold hdest hmask
  | neighbour face hface nbr hnbr hdest hmask => exact .neighbour face hface nbr hnbr hdest hmask
  | edge i j hedge hdest hmask => exact .edge i j hedge hdest hmask
  | host i hdist lsa hlsa hhost hdest hmask hgw =>
    have hsame := hkept i hdist
    exact .host i (by rwa [hsame]) lsa hlsa hhost hdest hmask (by rw [hsame, hgw])

theorem Traced.rowOf_eq (h : Traced m routerId kernel ifaceList c) (rid : UInt32) :
    rowOf m.sup c.record rid = rowOf m.sup m.record rid := by
  unfold rowOf
  congr 1
  funext i
  rw [h.valid, h.dbEntry]

/-- A route is added. -/
theorem Traced.addRoute (h : Traced m routerId kernel ifaceList c)
    (hentry : Origin m routerId kernel ifaceList c.record entry) (farther : Bool) :
    Traced m routerId kernel ifaceList ⟨c.record, addRtEntry c.rtable entry, farther⟩ := by
  refine ⟨h.valid, h.dbEntry, h.inRows, fun other hother => ?_⟩
  rcases List.mem_append.mp hother with hold | hnew
  · exact h.origin other hold
  · rw [List.mem_singleton.mp hnew]
    exact hentry

/-- A row gets what `calc_path` writes to it. -/
theorem Traced.setRow (h : Traced m routerId kernel ifaceList c) {i : Row} (hi : i ∈ rows m.sup)
    (dist : ℕ) (gw : UInt32) (iface : ι)
    (horigin : ∀ entry ∈ c.rtable, Origin m routerId kernel ifaceList
      (Function.update c.record i { c.record i with dist := dist, gw := gw, iface := iface })
      entry) :
    Traced m routerId kernel ifaceList { c with
      record := Function.update c.record i
        { c.record i with dist := dist, gw := gw, iface := iface } } := by
  refine ⟨fun j => ?_, fun j => ?_, fun j hj => ?_, horigin⟩
  · by_cases hji : j = i
    · subst hji
      simp [h.valid]
    · simp [hji, h.valid]
  · by_cases hji : j = i
    · subst hji
      simp [h.dbEntry]
    · simp [hji, h.dbEntry]
  · by_cases hji : j = i
    · exact hji ▸ hi
    · simp only [Function.update_of_ne hji] at hj
      exact h.inRows j hj

theorem mem_rows_of_rowOf {sup : ℕ} {record : Row → MtxMap ι} {rid : UInt32} {i : Row}
    (h : rowOf sup record rid = some i) : i ∈ rows sup := List.mem_of_find?_eq_some h

end Steps

section Link

variable {m : Mtx ι} {routerId : UInt32} {kernel : List (RtEntry ι)}
  {ifaceList : List (ι × List MospfNbr)} {c : Calc ι}

/-- In the first phase there are routes of the kernel and of neighbours. -/
def Linking (m : Mtx ι) (kernel : List (RtEntry ι)) (ifaceList : List (ι × List MospfNbr))
    (c : Calc ι) : Prop :=
  (∀ i, (c.record i).valid = (m.record i).valid ∧ (c.record i).dbEntry = (m.record i).dbEntry ∧
    ((c.record i).dist ≠ 0 → i ∈ rows m.sup)) ∧
  ∀ entry ∈ c.rtable,
    (∃ old ∈ kernel, entry.dest = old.dest ∧ entry.mask = old.mask) ∨
      ∃ face ∈ ifaceList, ∃ nbr ∈ face.2,
        entry.dest = nbr.nbrIp &&& nbr.nbrMask ∧ entry.mask = nbr.nbrMask

theorem Linking.linkNbr (h : Linking m kernel ifaceList c) (start : ℕ)
    {face : ι × List MospfNbr} (hface : face ∈ ifaceList) {nbr : MospfNbr} (hnbr : nbr ∈ face.2) :
    Linking m kernel ifaceList (linkNbr m.sup start face.1 c nbr) := by
  obtain ⟨hrows, hroutes⟩ := h
  rw [Mospf.linkNbr]
  cases hrow : rowOf m.sup c.record nbr.nbrId with
  | none => exact ⟨hrows, hroutes⟩
  | some i =>
    refine ⟨fun j => ?_, fun entry hentry => ?_⟩
    · by_cases hji : j = i
      · subst hji
        simpa [mem_rows_of_rowOf hrow] using ⟨(hrows j).1, (hrows j).2.1⟩
      · simpa [hji] using hrows j
    · dsimp only at hentry
      split at hentry
      next test htest =>
        rcases List.mem_iff_getElem?.mp hentry with ⟨k, hk⟩
        rw [List.getElem?_modify] at hk
        obtain ⟨old, hold, heq⟩ := Option.map_eq_some_iff.mp hk
        have hsame : entry.dest = old.dest ∧ entry.mask = old.mask := by
          rw [← heq]
          split_ifs <;> exact ⟨rfl, rfl⟩
        rw [hsame.1, hsame.2]
        exact hroutes old (List.mem_of_getElem? hold)
      next =>
        rcases List.mem_append.mp hentry with hold | hnew
        · exact hroutes entry hold
        · rw [List.mem_singleton.mp hnew]
          exact .inr ⟨face, hface, nbr, hnbr, rfl, rfl⟩

theorem linking_link (m : Mtx ι) (start : ℕ) (ifaceList : List (ι × List MospfNbr))
    (rtable : List (RtEntry ι)) :
    Linking m (rtable.take start) ifaceList (link m start ifaceList rtable) := by
  have hnbrs (face : ι × List MospfNbr) (hface : face ∈ ifaceList) (nbrs : List MospfNbr)
      (hsub : ∀ nbr ∈ nbrs, nbr ∈ face.2) (c : Calc ι)
      (hc : Linking m (rtable.take start) ifaceList c) :
      Linking m (rtable.take start) ifaceList (nbrs.foldl (linkNbr m.sup start face.1) c) := by
    induction nbrs generalizing c with
    | nil => exact hc
    | cons nbr nbrs ih =>
      exact ih (fun other hother => hsub other (List.mem_cons_of_mem nbr hother)) _
        (hc.linkNbr start hface (hsub nbr List.mem_cons_self))
  have hfaces (faces : List (ι × List MospfNbr)) (hsub : ∀ face ∈ faces, face ∈ ifaceList)
      (c : Calc ι) (hc : Linking m (rtable.take start) ifaceList c) :
      Linking m (rtable.take start) ifaceList (faces.foldl (linkIface m.sup start) c) := by
    induction faces generalizing c with
    | nil => exact hc
    | cons face faces ih =>
      exact ih (fun other hother => hsub other (List.mem_cons_of_mem face hother)) _
        (hnbrs face (hsub face List.mem_cons_self) face.2 (fun _ hnbr => hnbr) c hc)
  refine hfaces ifaceList (fun _ hface => hface) _ ⟨fun i => ⟨rfl, rfl, fun hi => ?_⟩,
    fun entry hentry => .inl ⟨entry, hentry, rfl, rfl⟩⟩
  exact absurd (m.dist_eq i) hi

theorem traced_link (m : Mtx ι) (routerId : UInt32) (start : ℕ)
    (ifaceList : List (ι × List MospfNbr)) (rtable : List (RtEntry ι)) :
    Traced m routerId (rtable.take start) ifaceList (link m start ifaceList rtable) := by
  obtain ⟨hrows, hroutes⟩ := linking_link m start ifaceList rtable
  refine ⟨fun i => (hrows i).1, fun i => (hrows i).2.1, fun i => (hrows i).2.2,
    fun entry hentry => ?_⟩
  rcases hroutes entry hentry with
    ⟨old, hold, hdest, hmask⟩ | ⟨face, hface, nbr, hnbr, hdest, hmask⟩
  · exact .kernel old hold hdest hmask
  · exact .neighbour face hface nbr hnbr hdest hmask

end Link

section Rounds

variable {m : Mtx ι} {routerId : UInt32} {kernel : List (RtEntry ι)}
  {ifaceList : List (ι × List MospfNbr)} {c c' : Calc ι}

/-- A discovered row has a route for the edge by which it was found. -/
theorem Traced.discover (h : Traced m routerId kernel ifaceList c) (dist : ℕ) (i : Row) :
    Traced m routerId kernel ifaceList (discover m dist c i) := by
  unfold Mospf.discover
  split
  next => exact h
  next j hfind =>
    have hj := List.find?_some hfind
    simp only [Bool.and_eq_true, decide_eq_true_eq] at hj
    have hset := h.setRow (List.mem_of_find?_eq_some hfind) (dist + 1) (c.record i).gw
      (c.record i).iface (fun entry hentry => (h.origin entry hentry).mono (fun x hx => by
        rw [Function.update_of_ne]
        rintro rfl
        exact hx hj.2))
    exact hset.addRoute (.edge i j (decide_eq_true hj.1) rfl rfl) true

/-- An advertised network of hosts gets a route by the gateway of the row. -/
theorem Traced.hostRoute (h : Traced m routerId kernel ifaceList c) {i : Row}
    (hi : (c.record i).dist ≠ 0) {lsa : MospfLsa} (hlsa : lsa ∈ (m.record i).dbEntry.array) :
    Traced m routerId kernel ifaceList (hostRoute m.sup routerId (c.record i) c lsa) ∧
      (HostLsa m routerId lsa → hostEntry (c.record i) lsa ∈
        (Mospf.hostRoute m.sup routerId (c.record i) c lsa).rtable) := by
  unfold Mospf.hostRoute
  rw [h.rowOf_eq]
  split_ifs with hown
  · exact ⟨h, fun hhost => absurd hown hhost.1⟩
  · cases hrow : rowOf m.sup m.record lsa.rid with
    | some j =>
      refine ⟨h, fun hhost => ?_⟩
      rw [hhost.2] at hrow
      cases hrow
    | none =>
      have horigin : Origin m routerId kernel ifaceList c.record (hostEntry (c.record i) lsa) :=
        .host i hi lsa hlsa ⟨hown, hrow⟩ rfl rfl rfl
      exact ⟨h.addRoute horigin c.farther,
        fun _ => List.mem_append_right _ (List.mem_singleton_self _)⟩

theorem Extends.mem (h : Extends c c') {entry : RtEntry ι} (hentry : entry ∈ c.rtable) :
    entry ∈ c'.rtable := by
  obtain ⟨added, heq, -⟩ := h.routes
  rw [heq]
  exact List.mem_append_left _ hentry

theorem HostRoutes.mono {i : Row} (h : HostRoutes m routerId c i) (hext : Extends c c')
    (hi : (c.record i).dist ≠ 0) : HostRoutes m routerId c' i := by
  intro lsa hlsa hhost
  rw [hext.kept i hi]
  exact hext.mem (h lsa hlsa hhost)

theorem Traced.foldl_hostRoute (h : Traced m routerId kernel ifaceList c) {i : Row}
    {row : MtxMap ι} (hi : (c.record i).dist ≠ 0) (hrow : row = c.record i)
    {lsas : List MospfLsa} (hsub : ∀ lsa ∈ lsas, lsa ∈ (m.record i).dbEntry.array) :
    Traced m routerId kernel ifaceList (lsas.foldl (Mospf.hostRoute m.sup routerId row) c) ∧
      ∀ lsa ∈ lsas, HostLsa m routerId lsa →
        hostEntry row lsa ∈ (lsas.foldl (Mospf.hostRoute m.sup routerId row) c).rtable := by
  induction lsas generalizing c with
  | nil => exact ⟨h, fun _ hmem => absurd hmem List.not_mem_nil⟩
  | cons lsa lsas ih =>
    have hone := h.hostRoute hi (hsub lsa List.mem_cons_self)
    have hext : Extends c (Mospf.hostRoute m.sup routerId (c.record i) c lsa) :=
      .hostRoute hi rfl m.sup lsa
    have hsame := hext.kept i hi
    subst hrow
    obtain ⟨htraced, hroutes⟩ := ih hone.1 (by rwa [hsame]) hsame.symm
      (fun other hother => hsub other (List.mem_cons_of_mem lsa hother))
    refine ⟨htraced, fun other hother hhost => ?_⟩
    rcases List.mem_cons.mp hother with rfl | hlater
    · have hrest : Extends _ (lsas.foldl (Mospf.hostRoute m.sup routerId (c.record i))
          (Mospf.hostRoute m.sup routerId (c.record i) c other)) :=
        .foldl_hostRoute (by rwa [hsame]) hsame.symm m.sup lsas
      exact hrest.mem (hone.2 hhost)
    · exact hroutes other hlater hhost

/-- A row at the distance of the round gets all its routes when its turn comes. -/
theorem Traced.expand (h : Traced m routerId kernel ifaceList c) {dist : ℕ} (hdist : dist ≠ 0)
    (i : Row) :
    Traced m routerId kernel ifaceList (expand m routerId dist c i) ∧
      ((c.record i).dist = dist → HostRoutes m routerId (Mospf.expand m routerId dist c i) i) := by
  unfold Mospf.expand
  split_ifs with hi
  · have hdiscover := h.discover dist i
    have hsame := (Extends.discover (m := m) dist c i).kept i (by rwa [hi])
    have hfound : ((Mospf.discover m dist c i).record i).dist ≠ 0 := by rwa [hsame, hi]
    have harray := hdiscover.dbEntry i
    have hsub : ∀ lsa ∈ ((Mospf.discover m dist c i).record i).dbEntry.array,
        lsa ∈ (m.record i).dbEntry.array := fun lsa hlsa => by rwa [harray] at hlsa
    obtain ⟨htraced, hroutes⟩ := hdiscover.foldl_hostRoute hfound rfl hsub
    refine ⟨htraced, fun _ lsa hlsa hhost => ?_⟩
    have hfold : Extends (Mospf.discover m dist c i)
        (((Mospf.discover m dist c i).record i).dbEntry.array.foldl
          (Mospf.hostRoute m.sup routerId ((Mospf.discover m dist c i).record i))
          (Mospf.discover m dist c i)) := .foldl_hostRoute hfound rfl m.sup _
    have hkept := hfold.kept i hfound
    dsimp only
    rw [hkept]
    exact hroutes lsa (by rwa [harray]) hhost
  · exact ⟨h, fun hyes => absurd hyes hi⟩

/-- The only new distance is the next one, and with it comes the flag. -/
theorem expand_dist (m : Mtx ι) (routerId : UInt32) (dist : ℕ) (c : Calc ι) (i x : Row) :
    (((expand m routerId dist c i).record x).dist = (c.record x).dist ∨
      (c.record x).dist = 0 ∧ ((expand m routerId dist c i).record x).dist = dist + 1 ∧
        (expand m routerId dist c i).farther = true) ∧
      (c.farther = true → (expand m routerId dist c i).farther = true) := by
  unfold Mospf.expand
  split_ifs with hi
  · obtain ⟨hrecord, hfarther, -⟩ := Mospf.foldl_hostRoute m.sup routerId
      ((discover m dist c i).record i) (discover m dist c i)
      ((discover m dist c i).record i).dbEntry.array
    dsimp only
    rw [hrecord, hfarther]
    rcases discover_cases m dist c i with ⟨hsame, -⟩ | ⟨j, -, -, hj, hrec, -, hfar⟩
    · rw [hsame]
      exact ⟨.inl rfl, id⟩
    · rw [hrec, hfar]
      refine ⟨?_, fun _ => rfl⟩
      by_cases hxj : x = j
      · subst hxj
        exact .inr ⟨hj, by simp, rfl⟩
      · simp [hxj]
  · exact ⟨.inl rfl, id⟩

/-- In round `k`, after the rows of a list: rows have at most the next distance, the flag tells
whether one has it, and those that are nearer or in the list have their routes. -/
structure Settling (m : Mtx ι) (routerId : UInt32) (kernel : List (RtEntry ι))
    (ifaceList : List (ι × List MospfNbr)) (k : ℕ) (visited : List Row) (c : Calc ι) : Prop where
  traced : Traced m routerId kernel ifaceList c
  le : ∀ i, (c.record i).dist ≤ k + 1
  routes : ∀ i, (c.record i).dist ≠ 0 →
    (c.record i).dist < k ∨ (c.record i).dist = k ∧ i ∈ visited → HostRoutes m routerId c i
  stop : c.farther = false → ∀ i, (c.record i).dist ≤ k

theorem Settling.expand {k : ℕ} {visited : List Row}
    (h : Settling m routerId kernel ifaceList k visited c) (hk : k ≠ 0) (i : Row) :
    Settling m routerId kernel ifaceList k (visited ++ [i]) (expand m routerId k c i) := by
  have hext : Extends c (Mospf.expand m routerId k c i) := .expand hk c i
  obtain ⟨htraced, hown⟩ := h.traced.expand hk i
  refine ⟨htraced, fun x => ?_, fun x hx hnear => ?_, fun hstop x => ?_⟩
  · rcases (expand_dist m routerId k c i x).1 with hsame | ⟨-, hnew, -⟩
    · rw [hsame]
      exact h.le x
    · exact hnew.le
  · rcases (expand_dist m routerId k c i x).1 with hsame | ⟨-, hnew, -⟩
    · rw [hsame] at hx hnear
      rcases hnear with hlt | ⟨heq, hmem⟩
      · exact (h.routes x hx (.inl hlt)).mono hext hx
      · rcases List.mem_append.mp hmem with hold | hlast
        · exact (h.routes x hx (.inr ⟨heq, hold⟩)).mono hext hx
        · obtain rfl := List.mem_singleton.mp hlast
          exact hown heq
    · omega
  · obtain ⟨hdist, hfarther⟩ := expand_dist m routerId k c i x
    rcases hdist with hsame | ⟨-, -, hset⟩
    · rw [hsame]
      refine h.stop (Bool.eq_false_iff.mpr fun htrue => ?_) x
      rw [hfarther htrue] at hstop
      cases hstop
    · rw [hset] at hstop
      cases hstop

theorem Settling.foldl_expand {k : ℕ} {visited : List Row}
    (h : Settling m routerId kernel ifaceList k visited c) (hk : k ≠ 0) (is : List Row) :
    Settling m routerId kernel ifaceList k (visited ++ is)
      (is.foldl (Mospf.expand m routerId k) c) := by
  induction is generalizing visited c with
  | nil => rwa [List.append_nil]
  | cons i is ih => simpa using ih (h.expand hk i)

/-- A round sets out from the rows of the last one. -/
theorem Settling.round {k : ℕ} (h : Settling m routerId kernel ifaceList k (rows m.sup) c) :
    Settling m routerId kernel ifaceList (k + 1) (rows m.sup) (round m routerId (k + 1) c) := by
  have hstart : Settling m routerId kernel ifaceList (k + 1) [] { c with farther := false } := by
    refine ⟨⟨h.traced.valid, h.traced.dbEntry, h.traced.inRows, h.traced.origin⟩,
      fun i => (h.le i).trans (Nat.le_succ _), fun i hi hnear => ?_, fun _ i => h.le i⟩
    have hlt : (c.record i).dist < k + 1 := hnear.resolve_right fun hno => List.not_mem_nil hno.2
    refine h.routes i hi ?_
    rcases Nat.lt_succ_iff_lt_or_eq.mp hlt with hless | heq
    · exact .inl hless
    · exact .inr ⟨heq, h.traced.inRows i hi⟩
  exact hstart.foldl_expand (Nat.succ_ne_zero k) (rows m.sup)

theorem Settling.rounds {k : ℕ} (h : Settling m routerId kernel ifaceList k (rows m.sup) c)
    (n : ℕ) : Settling m routerId kernel ifaceList (k + n) (rows m.sup)
      (rounds m routerId n k c) := by
  induction n generalizing k c with
  | zero => exact h
  | succ n ih =>
    rw [← Nat.add_assoc, Nat.add_right_comm]
    exact ih h.round

theorem settling_link (m : Mtx ι) (routerId : UInt32) (start : ℕ)
    (ifaceList : List (ι × List MospfNbr)) (rtable : List (RtEntry ι)) :
    Settling m routerId (rtable.take start) ifaceList 0 (rows m.sup)
      (link m start ifaceList rtable) := by
  have hlinked := linked_link m start ifaceList rtable
  have hle (i : Row) : ((link m start ifaceList rtable).record i).dist ≤ 1 := by
    by_cases hi : Direct m ifaceList i
    · exact (hlinked.dist_one i hi).le
    · exact (hlinked.dist_zero i hi).le.trans zero_le_one
  refine ⟨traced_link m routerId start ifaceList rtable, hle, fun i hi hnear => ?_,
    fun hstop i => ?_⟩
  · omega
  · refine (hlinked.dist_zero i fun hi => ?_).le
    rw [hlinked.farther.mpr ⟨i, hi⟩] at hstop
    cases hstop

end Rounds

/-- What `calc_path` leaves in the table: nothing but routes of the kernel, of neighbours, of edges,
and of networks that a row with a distance advertises and no router of the database is on; and of
these last ones all, each by the gateway of its row. -/
theorem calcPath_routes (m : Mtx ι) (routerId : UInt32) (start : ℕ)
    (ifaceList : List (ι × List MospfNbr)) (rtable : List (RtEntry ι)) :
    ∃ c, calcPath m routerId start ifaceList rtable (m.sup + 1) = some c ∧
      (∀ entry ∈ c.rtable,
        Origin m routerId (rtable.take start) ifaceList c.record entry) ∧
      ∀ i, (c.record i).dist ≠ 0 → HostRoutes m routerId c i := by
  obtain ⟨c, hc⟩ := calcPath_isSome m routerId start ifaceList rtable 0
  obtain ⟨n, -, hrounds, hstop, -⟩ := exists_rounds_of_loop hc
  have hsettled : Settling m routerId (rtable.take start) ifaceList n (rows m.sup) c := by
    have hrun := (settling_link m routerId start ifaceList rtable).rounds n
    rwa [Nat.zero_add, ← hrounds] at hrun
  refine ⟨c, hc, hsettled.traced.origin, fun i hi => hsettled.routes i hi ?_⟩
  rcases Nat.lt_or_eq_of_le (hsettled.stop hstop i) with hlt | heq
  · exact .inl hlt
  · exact .inr ⟨heq, hsettled.traced.inRows i hi⟩

end NetworkLab.Mospf
