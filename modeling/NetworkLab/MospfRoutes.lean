import NetworkLab.MospfShortest

/-!
# The computed routes lead somewhere

A row that `calc_path` gives a distance is reached over that many hops from the row of a direct
neighbour, and its gateway and interface are this neighbour's. The rounds end after one more than
`sup` of them, since a row never loses its distance; and the routes that they add are by the
gateways of such rows.
-/
namespace NetworkLab.Mospf
open GreedyLayers (Walk)

variable {ι : Type*}

section Model

/-- The state after so many iterations of `while (farther)`, the first with this distance. -/
def rounds (m : Mtx ι) (routerId : UInt32) : ℕ → ℕ → Calc ι → Calc ι
  | 0, _, c => c
  | n + 1, dist, c => rounds m routerId n (dist + 1) (round m routerId (dist + 1) c)

/-- There are `n` edges from the row of a direct neighbour to `j`, and this is the neighbour's
address and interface. -/
def ReachedVia (m : Mtx ι) (ifaceList : List (ι × List MospfNbr)) (n : ℕ) (j : Row) (gw : UInt32)
    (iface : ι) : Prop :=
  ∃ face ∈ ifaceList, ∃ nbr ∈ face.2,
    Walk (fun i => rowOf m.sup m.record nbr.nbrId = some i) m.edge n j ∧
      gw = nbr.nbrIp ∧ iface = face.1

/-- Every row with a distance has a chain of edges of that length, the first row included. -/
def Sound (m : Mtx ι) (ifaceList : List (ι × List MospfNbr)) (c : Calc ι) : Prop :=
  ∀ j d, (c.record j).dist = d + 1 →
    ReachedVia m ifaceList d j (c.record j).gw (c.record j).iface

/-- What the rounds do with a state: rows that have a distance stay as they are, and the routes
that are added have the gateway and the interface of such a row. -/
structure Extends (c c' : Calc ι) : Prop where
  kept : ∀ j, (c.record j).dist ≠ 0 → c'.record j = c.record j
  routes : ∃ added, c'.rtable = c.rtable ++ added ∧ ∀ entry ∈ added, ∃ j,
    (c'.record j).dist ≠ 0 ∧ entry.gw = (c'.record j).gw ∧ entry.iface = (c'.record j).iface

end Model

section Rounds

variable {m : Mtx ι} {c c' c'' : Calc ι} {routerId : UInt32}

theorem Extends.refl (c : Calc ι) : Extends c c :=
  ⟨fun _ _ => rfl, [], (List.append_nil _).symm, fun _ h => absurd h List.not_mem_nil⟩

theorem Extends.trans (h : Extends c c') (h' : Extends c' c'') : Extends c c'' := by
  obtain ⟨added, heq, hroutes⟩ := h.routes
  obtain ⟨added', heq', hroutes'⟩ := h'.routes
  refine ⟨fun j hj => ?_, added ++ added', ?_, fun entry hentry => ?_⟩
  · have hsame := h.kept j hj
    rw [h'.kept j (by rwa [hsame]), hsame]
  · rw [heq', heq, List.append_assoc]
  · rcases List.mem_append.mp hentry with hold | hnew
    · obtain ⟨j, hj, hroute⟩ := hroutes entry hold
      exact ⟨j, by rwa [h'.kept j hj], by rwa [h'.kept j hj]⟩
    · exact hroutes' entry hnew

/-- A loop whose body extends the state extends it. -/
theorem Extends.foldl {α : Type*} {f : Calc ι → α → Calc ι} {l : List α}
    (h : ∀ c, ∀ a ∈ l, Extends c (f c a)) (c : Calc ι) : Extends c (l.foldl f c) := by
  induction l generalizing c with
  | nil => exact .refl c
  | cons a l ih =>
    exact (h c a List.mem_cons_self).trans
      (ih (fun c b hb => h c b (List.mem_cons_of_mem a hb)) (f c a))

theorem Extends.discover (dist : ℕ) (c : Calc ι) (i : Row) : Extends c (discover m dist c i) := by
  rcases discover_cases m dist c i with ⟨hsame, -⟩ | ⟨j, -, -, hj, hrecord, hrtable, -⟩
  · rw [hsame]
    exact .refl c
  · refine ⟨fun x hx => ?_, [_], hrtable, fun entry hentry => ⟨j, ?_⟩⟩
    · rw [hrecord, Function.update_of_ne]
      rintro rfl
      exact hx hj
    · rw [List.mem_singleton.mp hentry, hrecord, Function.update_self]
      exact ⟨Nat.succ_ne_zero dist, rfl, rfl⟩

theorem Extends.hostRoute {i : Row} {row : MtxMap ι} (hi : (c.record i).dist ≠ 0)
    (hrow : row = c.record i) (sup : ℕ) (lsa : MospfLsa) :
    Extends c (hostRoute sup routerId row c lsa) := by
  subst hrow
  rw [Mospf.hostRoute]
  split_ifs
  · exact .refl c
  · cases rowOf sup c.record lsa.rid with
    | some j => exact .refl c
    | none =>
      refine ⟨fun _ _ => rfl, [_], rfl, fun entry hentry => ⟨i, hi, ?_⟩⟩
      rw [List.mem_singleton.mp hentry]
      exact ⟨rfl, rfl⟩

/-- The loop over the LSAs of a row that has a distance. -/
theorem Extends.foldl_hostRoute {i : Row} {row : MtxMap ι} (hi : (c.record i).dist ≠ 0)
    (hrow : row = c.record i) (sup : ℕ) (lsas : List MospfLsa) :
    Extends c (lsas.foldl (Mospf.hostRoute sup routerId row) c) := by
  induction lsas generalizing c with
  | nil => exact .refl c
  | cons lsa lsas ih =>
    have hone : Extends c (Mospf.hostRoute sup routerId row c lsa) := .hostRoute hi hrow sup lsa
    have hsame := hone.kept i hi
    exact hone.trans (ih (by rwa [hsame]) (hrow.trans hsame.symm))

theorem Extends.expand {dist : ℕ} (hdist : dist ≠ 0) (c : Calc ι) (i : Row) :
    Extends c (expand m routerId dist c i) := by
  rw [Mospf.expand]
  split_ifs with hi
  · have hdiscover : Extends c (Mospf.discover m dist c i) := .discover dist c i
    have hsame := hdiscover.kept i (by rwa [hi])
    exact hdiscover.trans (.foldl_hostRoute (by rwa [hsame, hi]) rfl m.sup _)
  · exact .refl c

theorem Extends.round {dist : ℕ} (hdist : dist ≠ 0) (c : Calc ι) :
    Extends c (round m routerId dist c) := by
  have hflag : Extends c { c with farther := false } :=
    ⟨fun _ _ => rfl, [], (List.append_nil _).symm, fun _ h => absurd h List.not_mem_nil⟩
  exact hflag.trans (.foldl (fun c i _ => .expand hdist c i) _)

theorem Extends.rounds (n dist : ℕ) (c : Calc ι) : Extends c (rounds m routerId n dist c) := by
  induction n generalizing dist c with
  | zero => exact .refl c
  | succ n ih => exact (Extends.round (Nat.succ_ne_zero dist) c).trans (ih _ _)

theorem rounds_add (k n dist : ℕ) (c : Calc ι) : Mospf.rounds m routerId (k + n) dist c =
    Mospf.rounds m routerId n (dist + k) (Mospf.rounds m routerId k dist c) := by
  induction k generalizing dist c with
  | zero => rw [Nat.zero_add]; rfl
  | succ k ih =>
    rw [Nat.succ_add, Mospf.rounds, ih, Nat.add_assoc, Nat.add_comm 1 k]
    rfl

/-- The loop stops after the first round that sets no flag. -/
theorem exists_rounds_of_loop {fuel dist : ℕ} (h : loop m routerId fuel dist c = some c') :
    ∃ n ≤ fuel, c' = rounds m routerId n dist c ∧ c'.farther = false ∧
      ∀ k < n, (rounds m routerId k dist c).farther = true := by
  induction fuel generalizing dist c with
  | zero =>
    rw [loop] at h
    split_ifs at h with hfar
    obtain rfl := Option.some.inj h
    exact ⟨0, le_rfl, rfl, by simpa using hfar, fun k hk => absurd hk (Nat.not_lt_zero k)⟩
  | succ fuel ih =>
    rw [loop] at h
    split_ifs at h with hfar
    · obtain ⟨n, hn, heq, hstop, hbefore⟩ := ih h
      refine ⟨n + 1, Nat.succ_le_succ hn, heq, hstop, fun k hk => ?_⟩
      cases k with
      | zero => exact hfar
      | succ k => exact hbefore k (Nat.lt_of_succ_lt_succ hk)
    · obtain rfl := Option.some.inj h
      exact ⟨0, Nat.zero_le _, rfl, by simpa using hfar, fun k hk => absurd hk (Nat.not_lt_zero k)⟩

end Rounds

section Chains

variable {m : Mtx ι} {c c' : Calc ι} {routerId : UInt32} {ifaceList : List (ι × List MospfNbr)}

theorem ReachedVia.step {n : ℕ} {i j : Row} {gw : UInt32} {iface : ι}
    (h : ReachedVia m ifaceList n i gw iface) (hedge : m.edge i j = true) :
    ReachedVia m ifaceList (n + 1) j gw iface := by
  obtain ⟨face, hface, nbr, hnbr, hwalk, hgw, hiface⟩ := h
  exact ⟨face, hface, nbr, hnbr, ⟨i, hwalk, hedge⟩, hgw, hiface⟩

/-- What the first phase keeps. -/
structure LinkSound (m : Mtx ι) (ifaceList : List (ι × List MospfNbr)) (c : Calc ι) : Prop where
  rowOf_eq : ∀ rid, rowOf m.sup c.record rid = rowOf m.sup m.record rid
  sound : Sound m ifaceList c

theorem LinkSound.linkNbr (h : LinkSound m ifaceList c) (start : ℕ) {face : ι × List MospfNbr}
    (hface : face ∈ ifaceList) {nbr : MospfNbr} (hnbr : nbr ∈ face.2) :
    LinkSound m ifaceList (linkNbr m.sup start face.1 c nbr) := by
  rw [Mospf.linkNbr]
  cases hrow : rowOf m.sup c.record nbr.nbrId with
  | none => exact h
  | some i =>
    refine ⟨fun rid => Eq.trans ?_ (h.rowOf_eq rid), fun j d hj => ?_⟩
    · exact rowOf_update _ _ _ _ _ rfl rfl
    by_cases hji : j = i
    · subst hji
      simp only [Function.update_self] at hj ⊢
      obtain rfl : d = 0 := by omega
      rw [h.rowOf_eq] at hrow
      exact ⟨face, hface, nbr, hnbr, hrow, rfl, rfl⟩
    · simp only [Function.update_of_ne hji] at hj ⊢
      exact h.sound j d hj

theorem linkSound_link (m : Mtx ι) (start : ℕ) (ifaceList : List (ι × List MospfNbr))
    (rtable : List (RtEntry ι)) : LinkSound m ifaceList (link m start ifaceList rtable) := by
  have hnbrs (face : ι × List MospfNbr) (hface : face ∈ ifaceList) (nbrs : List MospfNbr)
      (hsub : ∀ nbr ∈ nbrs, nbr ∈ face.2) (c : Calc ι) (hc : LinkSound m ifaceList c) :
      LinkSound m ifaceList (nbrs.foldl (linkNbr m.sup start face.1) c) := by
    induction nbrs generalizing c with
    | nil => exact hc
    | cons nbr nbrs ih =>
      exact ih (fun other hother => hsub other (List.mem_cons_of_mem nbr hother)) _
        (hc.linkNbr start hface (hsub nbr List.mem_cons_self))
  have hfaces (faces : List (ι × List MospfNbr)) (hsub : ∀ face ∈ faces, face ∈ ifaceList)
      (c : Calc ι) (hc : LinkSound m ifaceList c) :
      LinkSound m ifaceList (faces.foldl (linkIface m.sup start) c) := by
    induction faces generalizing c with
    | nil => exact hc
    | cons face faces ih =>
      exact ih (fun other hother => hsub other (List.mem_cons_of_mem face hother)) _
        (hnbrs face (hsub face List.mem_cons_self) face.2 (fun _ hnbr => hnbr) c hc)
  refine hfaces ifaceList (fun _ hface => hface) _ ⟨fun _ => rfl, fun j d hj => ?_⟩
  have hzero := m.dist_eq j
  have hnone : (m.record j).dist = d + 1 := hj
  omega

theorem Sound.discover {dist : ℕ} {i : Row} (h : Sound m ifaceList c)
    (hdist : dist ≠ 0) (hi : (c.record i).dist = dist) :
    Sound m ifaceList (discover m dist c i) := by
  rcases discover_cases m dist c i with ⟨hsame, -⟩ | ⟨j, -, hedge, -, hrecord, -, -⟩
  · rwa [hsame]
  · intro x d hx
    rw [hrecord] at hx ⊢
    by_cases hxj : x = j
    · subst hxj
      simp only [Function.update_self] at hx ⊢
      obtain ⟨d, rfl⟩ := Nat.exists_eq_succ_of_ne_zero (show d ≠ 0 by omega)
      exact (h i d (by omega)).step hedge
    · simp only [Function.update_of_ne hxj] at hx ⊢
      exact h x d hx

theorem Sound.expand {dist : ℕ} (h : Sound m ifaceList c) (hdist : dist ≠ 0) (i : Row) :
    Sound m ifaceList (expand m routerId dist c i) := by
  rw [Mospf.expand]
  split_ifs with hi
  · intro x d hx
    have hrecord := (foldl_hostRoute m.sup routerId ((Mospf.discover m dist c i).record i)
      (Mospf.discover m dist c i) ((Mospf.discover m dist c i).record i).dbEntry.array).1
    simp only [hrecord] at hx ⊢
    exact h.discover hdist hi x d hx
  · exact h

theorem Sound.rounds (h : Sound m ifaceList c) (n dist : ℕ) :
    Sound m ifaceList (rounds m routerId n dist c) := by
  have hround (dist : ℕ) (hdist : dist ≠ 0) (rows : List Row) (c : Calc ι)
      (hc : Sound m ifaceList c) :
      Sound m ifaceList (rows.foldl (Mospf.expand m routerId dist) c) := by
    induction rows generalizing c with
    | nil => exact hc
    | cons i rows ih => exact ih _ (hc.expand hdist i)
  induction n generalizing dist c with
  | zero => exact h
  | succ n ih =>
    have hone : Sound m ifaceList (Mospf.round m routerId (dist + 1) c) :=
      hround _ (Nat.succ_ne_zero dist) _ { c with farther := false } h
    exact ih hone (dist + 1)

/-- The rounds end, they only extend what is there, and each distance is that of a chain of edges
from a direct neighbour, by whose address and interface the routes are. -/
theorem calcPath_sound (m : Mtx ι) (routerId : UInt32) (start : ℕ)
    (ifaceList : List (ι × List MospfNbr)) (rtable : List (RtEntry ι)) :
    ∃ n ≤ m.sup + 1, ∃ c, c = rounds m routerId n 0 (link m start ifaceList rtable) ∧
      calcPath m routerId start ifaceList rtable (m.sup + 1) = some c ∧ c.farther = false ∧
      (∀ dist ≠ 0, ∀ (c₀ : Calc ι) (i j : Row), (c₀.record j).dist ≠ 0 →
        ((expand m routerId dist c₀ i).record j).dist = (c₀.record j).dist) ∧
      (∀ k j, ((rounds m routerId k 0 (link m start ifaceList rtable)).record j).dist ≠ 0 →
        k ≤ n → (c.record j).dist =
          ((rounds m routerId k 0 (link m start ifaceList rtable)).record j).dist) ∧
      (∀ j d, (c.record j).dist = d + 1 →
        ReachedVia m ifaceList d j (c.record j).gw (c.record j).iface) ∧
      ∃ added, c.rtable = (link m start ifaceList rtable).rtable ++ added ∧
        ∀ entry ∈ added, ∃ j d, (c.record j).dist = d + 1 ∧
          ReachedVia m ifaceList d j entry.gw entry.iface := by
  obtain ⟨c, hc⟩ := calcPath_isSome m routerId start ifaceList rtable 0
  obtain ⟨n, hn, hrounds, hstop, -⟩ := exists_rounds_of_loop hc
  have hsound : Sound m ifaceList c := by
    rw [hrounds]
    exact (linkSound_link m start ifaceList rtable).sound.rounds n 0
  have hextends : Extends (link m start ifaceList rtable) c := by
    rw [hrounds]
    exact .rounds n 0 _
  refine ⟨n, hn, c, hrounds, hc, hstop, fun dist hdist c₀ i j hj => ?_, fun k j hj hk => ?_,
    hsound, ?_⟩
  · rw [(Extends.expand hdist c₀ i).kept j hj]
  · have hrest : Extends _ (rounds m routerId (n - k) (0 + k)
        (rounds m routerId k 0 (link m start ifaceList rtable))) := .rounds _ _ _
    rw [← rounds_add, Nat.add_sub_cancel' hk, ← hrounds] at hrest
    rw [hrest.kept j hj]
  · obtain ⟨added, heq, hroutes⟩ := hextends.routes
    refine ⟨added, heq, fun entry hentry => ?_⟩
    obtain ⟨j, hj, hgw, hiface⟩ := hroutes entry hentry
    obtain ⟨d, hd⟩ := Nat.exists_eq_succ_of_ne_zero hj
    rw [hgw, hiface]
    exact ⟨j, d, hd, hsound j d hd⟩

end Chains

end NetworkLab.Mospf
