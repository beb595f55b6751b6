import NetworkLab.ParentTree
import NetworkLab.SwitchSteps

/-!
# Where frames arrive in a network of learning switches

The copies of a frame are counted on every link: there are never more of them than the node before
has handled, and on the way to the station that the frame is for there are as many.
-/
namespace NetworkLab.SwitchNetwork
open GuardedRuns TreeDirections ParentTree
open LearningSwitch (Mac Frame Ustack)

section Counting

variable {V : Type*} [DecidableEq V]

/-- The copies of a frame that have gone over a link, those on it and those lost there as well. -/
def World.crossed (w : World V) (k : ℕ) (u v : V) : ℕ :=
  (w.transit u v).countP (fun c => decide (c.id = k)) + w.arrived.count (u, v, k) +
    w.lost.count (u, v, k)

def World.arrivals (w : World V) (k : ℕ) (v : V) : ℕ :=
  w.arrived.countP fun m => decide (m.2 = (v, k))

/-- The copies of a frame that a node has sent on; the station that sends the frame has one. -/
def World.handled (w : World V) (k : ℕ) (v : V) : ℕ :=
  w.arrivals k v + (w.sent[k]?).elim 0 fun m => if m.1 = v then 1 else 0

/-- The link leads away from the sender and, where the frame is for a station, towards it. -/
def Wanted (s : Site V) (x : V) (f : Frame) (u v : V) : Prop :=
  Nearer s.graph x v u ∧
    ∀ d, s.station d = true → s.mac d = f.etherDhost → Nearer s.graph d u v

structure World.Counted (s : Site V) (w : World V) : Prop where
  arrived : ∀ u v k, (u, v, k) ∈ w.arrived →
    ∃ x f, w.sent[k]? = some (x, f) ∧ Nearer s.graph x v u
  lost : ∀ u v k, (u, v, k) ∈ w.lost → k < w.sent.length
  le : ∀ k u v, w.crossed k u v ≤ w.handled k u
  eq : ∀ k x f u v, w.sent[k]? = some (x, f) → Wanted s x f u v →
    w.crossed k u v = w.handled k u

variable {s : Site V} {w w' : World V} {u v x : V} {c : Copy} {f : Frame}

theorem World.counted_initial (s : Site V) : (World.initial : World V).Counted s where
  arrived u v k h := absurd h List.not_mem_nil
  lost u v k h := absurd h List.not_mem_nil
  le k u v := Nat.zero_le _
  eq k x f u v h := by simp [World.initial] at h

/-- A node sends copies of one frame on distinct interfaces, the wanted ones among them. -/
theorem World.Counted.add {k₀ : ℕ} {ps : List V} (h : w.Counted s) (hps : ps.Nodup)
    (hcrossed : ∀ k a b, w'.crossed k a b =
      w.crossed k a b + if k = k₀ ∧ a = v then ps.count b else 0)
    (hhandled : ∀ k a, w'.handled k a = w.handled k a + if k = k₀ ∧ a = v then 1 else 0)
    (hwanted : ∀ x f b, w'.sent[k₀]? = some (x, f) → Wanted s x f v b → b ∈ ps)
    (hsent : ∀ (k : ℕ) (m : V × Frame), w'.sent[k]? = some m →
      w.sent[k]? = some m ∨ ∀ a b, w.crossed k a b = w.handled k a)
    (harrived : ∀ u v k, (u, v, k) ∈ w'.arrived →
      ∃ x f, w'.sent[k]? = some (x, f) ∧ Nearer s.graph x v u)
    (hlost : ∀ u v k, (u, v, k) ∈ w'.lost → k < w'.sent.length) : w'.Counted s where
  arrived := harrived
  lost := hlost
  le k a b := by
    have hle := h.le k a b
    have hcount := List.nodup_iff_count_le_one.mp hps b
    rw [hcrossed, hhandled]
    split_ifs
    · omega
    · omega
  eq k x f a b hk hw := by
    have hold : w.crossed k a b = w.handled k a :=
      (hsent k _ hk).elim (fun hk => h.eq k x f a b hk hw) fun hall => hall a b
    rw [hcrossed, hhandled, hold]
    split_ifs with hat
    · obtain ⟨rfl, rfl⟩ := hat
      rw [List.count_eq_one_of_mem hps (hwanted x f b hk hw)]
    · rfl

/-- Nothing is counted differently. -/
theorem World.Counted.same (h : w.Counted s) (hcrossed : ∀ k a b, w'.crossed k a b =
      w.crossed k a b) (hsent : w'.sent = w.sent) (harrived : w'.arrived = w.arrived)
    (hlost : ∀ u v k, (u, v, k) ∈ w'.lost → k < w.sent.length) : w'.Counted s where
  arrived u v k hm := by
    rw [hsent]
    exact h.arrived u v k (harrived ▸ hm)
  lost u v k hm := by
    rw [hsent]
    exact hlost u v k hm
  le k a b := by
    rw [hcrossed, World.handled, World.arrivals, hsent, harrived]
    exact h.le k a b
  eq k x f a b hk hw := by
    rw [hcrossed, World.handled, World.arrivals, hsent, harrived]
    exact h.eq k x f a b (hsent ▸ hk) hw

theorem countP_single (k : ℕ) (a b : V) :
    (single u v c a b).countP (fun c => decide (c.id = k)) = [(u, v, c.id)].count (a, b, k) := by
  by_cases hab : a = u ∧ b = v
  · obtain ⟨rfl, rfl⟩ := hab
    by_cases hk : c.id = k <;> simp [single, hk]
  · have hne : (u, v, c.id) ≠ (a, b, k) := by
      rintro ⟨rfl, rfl, -⟩
      exact hab ⟨rfl, rfl⟩
    simp [single, hab, hne]

/-- A copy leaves a link and arrives, and copies of it are sent on. -/
theorem World.Right.counted_arrive (h : w.Right s) (hc : w.Counted s) {ps : List V}
    (hmem : c ∈ w.transit u v) (hmoved : w.Moved w' (single u v c) v c ps) (hps : ps.Nodup)
    (hwanted : ∀ x f b, w.sent[c.id]? = some (x, f) → Wanted s x f v b → b ∈ ps)
    (hsent : w'.sent = w.sent) (harrived : w'.arrived = w.arrived ++ [(u, v, c.id)])
    (hlost : w'.lost = w.lost) : w'.Counted s := by
  refine @World.Counted.add V _ s w w' v c.id ps hc hps ?_ ?_ ?_ ?_ ?_ ?_
  · intro k a b
    have hcount := hmoved.countP k a b
    rw [countP_single] at hcount
    simp only [World.crossed, harrived, hlost, List.count_append]
    omega
  · intro k a
    simp only [World.handled, World.arrivals, harrived, hsent, List.countP_append,
      List.countP_singleton, decide_eq_true_eq, Prod.mk.injEq]
    by_cases hat : k = c.id ∧ a = v
    · rw [if_pos hat, if_pos ⟨hat.2.symm, hat.1.symm⟩]
      omega
    · rw [if_neg hat, if_neg fun heq => hat ⟨heq.2.symm, heq.1.symm⟩]
      omega
  · rw [hsent]
    exact hwanted
  · rw [hsent]
    exact fun k m hk => .inl hk
  · intro a b k hm
    rw [hsent]
    rw [harrived] at hm
    rcases List.mem_append.mp hm with hold | hnew
    · exact hc.arrived a b k hold
    · obtain ⟨rfl, rfl, rfl⟩ : a = u ∧ b = v ∧ k = c.id := by simpa using hnew
      obtain ⟨x, hx, hnear⟩ := h.sourced a b c hmem
      exact ⟨x, c.frame, hx, hnear⟩
  · intro a b k hm
    rw [hsent]
    exact hc.lost a b k (hlost ▸ hm)

theorem World.Right.counted_passed {now : ℤ} (h : w.Right s) (hc : w.Counted s)
    (hpending : w.pending v = some (u, c)) : (w.passed s u v c now).Counted s := by
  have hmem : c ∈ w.transit u v := by
    rw [World.transit_of_pending hpending]
    exact List.mem_cons_self
  refine h.counted_arrive hc hmem (World.moved_passed hpending) (nodup_outs _ _ _) ?_ rfl rfl rfl
  intro x f b hsent hw
  obtain ⟨x', hsent', hnear⟩ := h.sourced u v c hmem
  obtain ⟨rfl, rfl⟩ := Prod.mk.inj (Option.some.inj (hsent.symm.trans hsent'))
  unfold World.outs SwitchNetwork.outs
  split
  next p hdest =>
    obtain ⟨⟨d, hd, hmac, hnear'⟩, -⟩ := h.entries v _ p hdest
    exact List.mem_singleton.mpr ((hw.2 d hd hmac).unique s.isTree hnear')
  next =>
    refine List.mem_filter.mpr ⟨(s.mem_ifaceList v b).mpr hw.1.adj.symm, decide_eq_true ?_⟩
    rintro rfl
    exact hw.1.not_symm hnear

theorem World.Right.counted_accepted {rest : List Copy} (h : w.Right s) (hc : w.Counted s)
    (hlink : w.link u v = c :: rest) (hstation : s.station v = true) :
    (w.accepted u v c).Counted s := by
  have hhead : (w.link u v)[0]? = some c := by rw [hlink]; rfl
  have hmem : c ∈ w.transit u v := (w.link_sublist u v).subset (List.mem_of_getElem? hhead)
  refine h.counted_arrive hc hmem (World.moved_take hhead rfl rfl) List.nodup_nil ?_ rfl rfl rfl
  -- A station has no link but the one that the copy has come by.
  intro x f b hsent hw
  obtain ⟨x', hsent', hnear⟩ := h.sourced u v c hmem
  obtain ⟨rfl, rfl⟩ := Prod.mk.inj (Option.some.inj (hsent.symm.trans hsent'))
  obtain ⟨y, hy⟩ := s.one_iface v hstation
  have hu := (s.mem_ifaceList v u).mpr hnear.adj
  have hb := (s.mem_ifaceList v b).mpr hw.1.adj.symm
  rw [hy, List.mem_singleton] at hu hb
  rw [hb, ← hu] at hw
  exact absurd hnear hw.1.not_symm

theorem World.Right.counted_dropped {k : ℕ} (h : w.Right s) (hc : w.Counted s)
    (hlink : (w.link u v)[k]? = some c) : (w.dropped u v k c).Counted s := by
  have hmem : c ∈ w.transit u v := (w.link_sublist u v).subset (List.mem_of_getElem? hlink)
  have hmoved : w.Moved (w.dropped u v k c) (single u v c) v c [] :=
    World.moved_take hlink rfl rfl
  refine hc.same ?_ rfl rfl ?_
  · intro j a b
    have hcount := hmoved.countP j a b
    simp only [countP_single, List.count_nil, ite_self] at hcount
    simp only [World.crossed, World.dropped, List.count_append] at hcount ⊢
    omega
  · intro a b j hm
    rcases List.mem_append.mp hm with hold | hnew
    · exact hc.lost a b j hold
    · obtain ⟨rfl, rfl, rfl⟩ : a = u ∧ b = v ∧ j = c.id := by simpa using hnew
      obtain ⟨x, hx, -⟩ := h.sourced a b c hmem
      exact (List.getElem?_eq_some_iff.mp hx).1

/-- A frame that has not been sent has no copies. -/
theorem World.Right.unsent (h : w.Right s) (hc : w.Counted s) (a b : V) :
    w.crossed w.sent.length a b = 0 ∧ w.handled w.sent.length a = 0 := by
  have hpast (y : V) (f : Frame) : w.sent[w.sent.length]? ≠ some (y, f) := by simp
  have htransit : (w.transit a b).countP (fun c => decide (c.id = w.sent.length)) = 0 := by
    refine List.countP_eq_zero.mpr fun c hcopy hid => ?_
    obtain ⟨x, hx, -⟩ := h.sourced a b c hcopy
    exact hpast _ _ (of_decide_eq_true hid ▸ hx)
  have harrived : w.arrived.count (a, b, w.sent.length) = 0 := by
    refine List.count_eq_zero.mpr fun hm => ?_
    obtain ⟨x, f, hx, -⟩ := hc.arrived a b _ hm
    exact hpast _ _ hx
  have hlost : w.lost.count (a, b, w.sent.length) = 0 :=
    List.count_eq_zero.mpr fun hm => absurd (hc.lost a b _ hm) (lt_irrefl _)
  have hnone : w.arrivals w.sent.length a = 0 := by
    refine List.countP_eq_zero.mpr fun m hm hat => ?_
    obtain ⟨b, m⟩ := m
    obtain rfl : m = (a, w.sent.length) := of_decide_eq_true hat
    obtain ⟨x, f, hx, -⟩ := hc.arrived b a _ hm
    exact hpast _ _ hx
  simp [World.crossed, World.handled, htransit, harrived, hlost, hnone]

theorem World.Right.counted_posted (h : w.Right s) (hc : w.Counted s) :
    (w.posted s x f).Counted s := by
  have hkeep (k : ℕ) (m : V × Frame) (hm : w.sent[k]? = some m) :
      (w.posted s x f).sent[k]? = some m := by
    simp only [World.posted]
    rwa [List.getElem?_append_left (List.getElem?_eq_some_iff.mp hm).1]
  refine @World.Counted.add V _ s w _ x w.sent.length _ hc (s.ustack x).nodup ?_ ?_ ?_ ?_ ?_ ?_
  · intro k a b
    have hmoved : w.Moved (w.posted s x f) (fun _ _ => []) x ⟨w.sent.length, f⟩
        (s.ustack x).ifaceList := World.moved_posted
    have hcount := hmoved.countP k a b
    have hcrossed : (w.posted s x f).crossed k a b =
        ((w.posted s x f).transit a b).countP (fun c => decide (c.id = k)) +
          w.arrived.count (a, b, k) + w.lost.count (a, b, k) := rfl
    simp only [List.countP_nil] at hcount
    rw [hcrossed, World.crossed]
    omega
  · intro k a
    have hhandled : (w.posted s x f).handled k a = w.arrivals k a +
        ((w.sent ++ [(x, f)])[k]?).elim 0 fun m => if m.1 = a then 1 else 0 := rfl
    rw [hhandled, World.handled]
    rcases Nat.lt_trichotomy k w.sent.length with hlt | rfl | hgt
    · rw [List.getElem?_append_left hlt, if_neg fun heq => hlt.ne heq.1]
      omega
    · rw [List.getElem?_concat_length, List.getElem?_eq_none le_rfl]
      simp only [Option.elim_some, Option.elim_none, true_and, @eq_comm _ x a]
      omega
    · rw [List.getElem?_eq_none hgt.le,
        List.getElem?_eq_none (by rw [List.length_append]; exact hgt),
        if_neg fun heq => hgt.ne' heq.1]
      rfl
  · intro y g b hsent hw
    simp only [World.posted, List.getElem?_concat_length, Option.some.injEq] at hsent
    obtain ⟨rfl, rfl⟩ := Prod.mk.inj hsent
    exact (s.mem_ifaceList x b).mpr hw.1.adj.symm
  · intro k m hm
    rcases Nat.lt_trichotomy k w.sent.length with hlt | rfl | hgt
    · simp only [World.posted] at hm
      rw [List.getElem?_append_left hlt] at hm
      exact .inl hm
    · exact .inr fun a b => by rw [(h.unsent hc a b).1, (h.unsent hc a b).2]
    · have hlt := (List.getElem?_eq_some_iff.mp hm).1
      simp only [World.posted, List.length_append, List.length_singleton] at hlt
      omega
  · intro a b k hm
    obtain ⟨y, g, hy, hnear⟩ := hc.arrived a b k hm
    exact ⟨y, g, hkeep _ _ hy, hnear⟩
  · intro a b k hm
    have := hc.lost a b k hm
    simp only [World.posted, List.length_append]
    omega

theorem World.Right.counted_step {e : Event V} (h : w.Right s) (hc : w.Counted s)
    (hs : SwitchNetwork.step s w e = some w') : w'.Counted s := by
  cases World.stepped hs with
  | send hstation => exact h.counted_posted hc
  | receive hlink hpending hstation =>
    refine hc.same (fun k a b => ?_) rfl rfl hc.lost
    rw [World.crossed, World.learned_transit hlink hpending]
    rfl
  | dispatch hpending => exact h.counted_passed hc hpending
  | accept hlink hstation => exact h.counted_accepted hc hlink hstation
  | sweep => exact hc.same (fun _ _ _ => rfl) rfl rfl hc.lost
  | lose hlink => exact h.counted_dropped hc hlink

end Counting

section Delivery

variable {V : Type*} [DecidableEq V] {s : Site V} {w : World V} {k : ℕ} {x u v : V} {f : Frame}

/-- No copy of the frame is on its way or lost. -/
def World.Finished (w : World V) (k : ℕ) : Prop :=
  ∀ u v, (∀ c ∈ w.transit u v, c.id ≠ k) ∧ (u, v, k) ∉ w.lost

instance [Fintype V] (w : World V) (k : ℕ) : Decidable (w.Finished k) :=
  inferInstanceAs (Decidable (∀ _ _, (∀ _ ∈ _, _) ∧ _))

/-- What becomes of a frame that a station has sent. -/
structure World.Delivers (s : Site V) (w : World V) (k : ℕ) (x : V) (f : Frame) : Prop where
  once : ∀ v, w.arrivals k v ≤ 1
  not_back : w.arrivals k x = 0
  station : w.Finished k → ∀ d, s.station d = true → s.mac d = f.etherDhost → w.arrivals k d = 1
  broadcast : w.Finished k → (∀ d, s.station d = true → s.mac d ≠ f.etherDhost) →
    ∀ v, v ≠ x → w.arrivals k v = 1

theorem World.Counted.arrivals_eq (h : w.Counted s) (hk : w.sent[k]? = some (x, f))
    (hnear : Nearer s.graph x v u) : w.arrivals k v = w.arrived.count (u, v, k) := by
  rw [World.arrivals, List.count]
  refine List.countP_congr fun m hm => ?_
  obtain ⟨b, m⟩ := m
  simp only [decide_eq_true_eq, beq_iff_eq, Prod.mk.injEq]
  constructor
  · rintro rfl
    obtain ⟨y, g, hy, hnear'⟩ := h.arrived b v k hm
    obtain ⟨rfl, -⟩ := Prod.mk.inj (Option.some.inj (hk.symm.trans hy))
    exact ⟨hnear'.unique s.isTree hnear, rfl⟩
  · exact And.right

theorem World.Counted.arrivals_source (h : w.Counted s) (hk : w.sent[k]? = some (x, f)) :
    w.arrivals k x = 0 := by
  refine List.countP_eq_zero.mpr fun m hm hat => ?_
  obtain ⟨b, m⟩ := m
  obtain rfl : m = (x, k) := of_decide_eq_true hat
  obtain ⟨y, g, hy, hnear⟩ := h.arrived b x k hm
  obtain ⟨rfl, -⟩ := Prod.mk.inj (Option.some.inj (hk.symm.trans hy))
  exact not_nearer_self hnear

theorem World.Counted.handled_source (h : w.Counted s) (hk : w.sent[k]? = some (x, f)) :
    w.handled k x = 1 := by
  simp [World.handled, h.arrivals_source hk, hk]

theorem World.handled_of_ne (hk : w.sent[k]? = some (x, f)) (hv : v ≠ x) :
    w.handled k v = w.arrivals k v := by
  simp [World.handled, hk, Ne.symm hv]

/-- Along the way from the sender no node handles a frame twice. -/
theorem World.Counted.handled_le (h : w.Counted s) (hk : w.sent[k]? = some (x, f)) (v : V) :
    w.handled k v ≤ 1 := by
  generalize hn : s.graph.dist x v = n
  induction n generalizing v with
  | zero =>
    obtain rfl : x = v := s.isTree.connected.dist_eq_zero_iff.mp hn
    exact (h.handled_source hk).le
  | succ n ih =>
    by_cases hv : v = x
    · rw [hv, h.handled_source hk]
    · obtain ⟨u, hnear⟩ := exists_nearer s.isTree.connected hv
      have hu := ih u (by have := hnear.dist; omega)
      have hle := h.le k u v
      rw [World.handled_of_ne hk hv, h.arrivals_eq hk hnear]
      simp only [World.crossed] at hle
      omega

/-- The node is on the way from the sender to the station that the frame is for. -/
def OnWay (s : Site V) (x : V) (f : Frame) (v : V) : Prop :=
  ∀ d, s.station d = true → s.mac d = f.etherDhost →
    s.graph.dist x v + s.graph.dist d v = s.graph.dist x d

omit [DecidableEq V] in
theorem OnWay.prev (h : OnWay s x f v) (hnear : Nearer s.graph x v u) :
    OnWay s x f u ∧ Wanted s x f u v := by
  have hdist (d : V) (hd : s.station d = true) (hmac : s.mac d = f.etherDhost) :
      s.graph.dist d u = s.graph.dist d v + 1 := by
    have hv := h d hd hmac
    have hstep := hnear.dist
    have hdown := s.isTree.connected.dist_triangle (u := d) (v := v) (w := u)
    have hover := s.isTree.connected.dist_triangle (u := x) (v := u) (w := d)
    rw [SimpleGraph.dist_eq_one_iff_adj.mpr hnear.adj] at hdown
    rw [@SimpleGraph.dist_comm _ _ u d] at hover
    omega
  refine ⟨fun d hd hmac => ?_, hnear, fun d hd hmac => ⟨hnear.adj.symm, hdist d hd hmac⟩⟩
  have hv := h d hd hmac
  have hstep := hnear.dist
  have hu := hdist d hd hmac
  omega

/-- When no copy is left over, all nodes on the way have handled the frame. -/
theorem World.Counted.handled_onWay (h : w.Counted s) (hk : w.sent[k]? = some (x, f))
    (hfinished : w.Finished k) (v : V) (hv : OnWay s x f v) : w.handled k v = 1 := by
  generalize hn : s.graph.dist x v = n
  induction n generalizing v with
  | zero =>
    obtain rfl : x = v := s.isTree.connected.dist_eq_zero_iff.mp hn
    exact h.handled_source hk
  | succ n ih =>
    by_cases hvx : v = x
    · rw [hvx, h.handled_source hk]
    · obtain ⟨u, hnear⟩ := exists_nearer s.isTree.connected hvx
      obtain ⟨hu, hwanted⟩ := hv.prev hnear
      have hone := ih u hu (by have := hnear.dist; omega)
      have hcrossed := h.eq k x f u v hk hwanted
      have htransit : (w.transit u v).countP (fun c => decide (c.id = k)) = 0 :=
        List.countP_eq_zero.mpr fun c hc hid =>
          (hfinished u v).1 c hc (of_decide_eq_true hid)
      rw [World.crossed, htransit, List.count_eq_zero.mpr (hfinished u v).2] at hcrossed
      rw [World.handled_of_ne hk hvx, h.arrivals_eq hk hnear]
      omega

theorem World.Counted.delivers (h : w.Counted s) (hk : w.sent[k]? = some (x, f))
    (hdst : f.etherDhost ≠ s.mac x) : w.Delivers s k x f where
  once v := (Nat.le_add_right _ _).trans (h.handled_le hk v)
  not_back := h.arrivals_source hk
  station hfinished d hd hmac := by
    have hne : d ≠ x := by
      rintro rfl
      exact hdst hmac.symm
    rw [← World.handled_of_ne hk hne]
    refine h.handled_onWay hk hfinished d fun d' hd' hmac' => ?_
    rw [s.mac_injective d' d hd' hd (hmac'.trans hmac.symm), SimpleGraph.dist_self]
    rfl
  broadcast hfinished hnone v hv := by
    rw [← World.handled_of_ne hk hv]
    exact h.handled_onWay hk hfinished v fun d hd hmac => absurd hmac (hnone d hd)

/-- On a tree, while entries age out in order, every entry leads to its station, and every frame
comes to each node once at most, never back to its sender, and, unless a copy is lost, to the
station that it is for, or to all nodes when it is for none. -/
theorem frames_delivered
    (h : Reaches (step s) (Orderly s) (fun w => w = World.initial) w) :
    (∀ v a u, ifaceOf (w.table v) a = some u → Onward s v u a) ∧
      ∀ k x f, w.sent[k]? = some (x, f) → w.Delivers s k x f := by
  obtain ⟨hright, hcounted⟩ := h.invariant (fun w => w.Right s ∧ w.Counted s)
    (fun w hw => hw ▸ ⟨World.right_initial s, World.counted_initial s⟩)
    (fun w e w' hw hok hs => ⟨hw.1.step hok hs, hw.1.counted_step hw.2 hs⟩)
  refine ⟨fun v a u hu => (hright.entries v a u hu).1, fun k x f hk => ?_⟩
  exact hcounted.delivers hk (hright.stations x f (List.mem_of_getElem? hk)).2.2

end Delivery

section Instance

inductive TwoSwitches
  | h1 | h2 | h3 | s1 | s2
  deriving DecidableEq

instance : Fintype TwoSwitches := ⟨{.h1, .h2, .h3, .s1, .s2}, fun v => by cases v <;> decide⟩

def TwoSwitches.ifaces : TwoSwitches → List TwoSwitches
  | .s1 => [.h1, .h3, .s2]
  | .s2 => [.h2, .s1]
  | .h1 | .h3 => [.s1]
  | .h2 => [.s2]

theorem TwoSwitches.nodup_ifaces : ∀ v, (TwoSwitches.ifaces v).Nodup := by decide

theorem TwoSwitches.ifaces_symm : ∀ v w, w ∈ TwoSwitches.ifaces v → v ∈ TwoSwitches.ifaces w := by
  decide

theorem TwoSwitches.ifaces_irrefl : ∀ v, v ∉ TwoSwitches.ifaces v := by decide

def TwoSwitches.graph : SimpleGraph TwoSwitches where
  Adj v w := w ∈ TwoSwitches.ifaces v
  symm := ⟨TwoSwitches.ifaces_symm⟩
  loopless := ⟨TwoSwitches.ifaces_irrefl⟩

def TwoSwitches.parent : TwoSwitches → TwoSwitches
  | .h2 => .s2
  | .h1 | .h3 | .s1 | .s2 => .s1

def TwoSwitches.depth : TwoSwitches → ℕ
  | .s1 => 0
  | .h1 | .h3 | .s2 => 1
  | .h2 => 2

theorem TwoSwitches.parented : Parented TwoSwitches.graph .s1 TwoSwitches.parent
    TwoSwitches.depth where
  depth_root := rfl
  adj_parent v hv := by
    change TwoSwitches.parent v ∈ TwoSwitches.ifaces v
    revert v
    decide
  depth_parent := by decide
  of_adj v w hadj := by
    change w ∈ TwoSwitches.ifaces v at hadj
    revert v w
    decide

def TwoSwitches.station : TwoSwitches → Bool
  | .h1 | .h2 | .h3 => true
  | .s1 | .s2 => false

def TwoSwitches.mac : TwoSwitches → Mac
  | .h1 => .replicate 6 1
  | .h2 => .replicate 6 2
  | .h3 => .replicate 6 3
  | .s1 | .s2 => .replicate 6 0

theorem TwoSwitches.one_iface : ∀ x, TwoSwitches.station x = true →
    ∃ y, TwoSwitches.ifaces x = [y] := by decide

theorem TwoSwitches.mac_injective : ∀ x y, TwoSwitches.station x = true →
    TwoSwitches.station y = true → TwoSwitches.mac x = TwoSwitches.mac y → x = y := by decide

/-- Hosts `h1` and `h3` on the first switch, `h2` on the second one. -/
def twoSwitches : Site TwoSwitches where
  graph := TwoSwitches.graph
  isTree := TwoSwitches.parented.isTree
  ustack v := ⟨TwoSwitches.ifaces v, TwoSwitches.nodup_ifaces v⟩
  mem_ifaceList _ _ := Iff.rfl
  station := TwoSwitches.station
  one_iface := TwoSwitches.one_iface
  mac := TwoSwitches.mac
  mac_injective := TwoSwitches.mac_injective

def request : Frame := ⟨TwoSwitches.mac .h2, TwoSwitches.mac .h1, []⟩
def reply : Frame := ⟨TwoSwitches.mac .h1, TwoSwitches.mac .h2, []⟩

/-- The request is flooded. Then both switches forget `h1`, the one farther away first, and the
reply is flooded as well. -/
def exchange : List (Event TwoSwitches) :=
  [.send .h1 request, .receive .h1 .s1 0, .dispatch .s1 0, .accept .s1 .h3, .receive .s1 .s2 0,
    .dispatch .s2 0, .accept .s2 .h2, .sweep .s2 31, .sweep .s1 31, .send .h2 reply,
    .receive .h2 .s2 32, .dispatch .s2 32, .receive .s2 .s1 32, .dispatch .s1 32,
    .accept .s1 .h1, .accept .s1 .h3]

theorem frames_delivered_twoSwitches : ∃ w : World TwoSwitches,
    w.arrivals 0 .h2 = 1 ∧ w.arrivals 1 .h1 = 1 := by
  have hrun : ∃ w, Reaches (step twoSwitches) (Orderly twoSwitches) (fun w => w = World.initial) w ∧
      w.sent = [(.h1, request), (.h2, reply)] ∧ w.Finished 0 ∧ w.Finished 1 :=
    exists_of_exec_from World.initial exchange _ (by decide +kernel)
  obtain ⟨w, hw, hsent, hfirst, hsecond⟩ := hrun
  have hdelivers := (frames_delivered hw).2
  exact ⟨w, (hdelivers 0 .h1 request (by rw [hsent]; rfl)).station hfirst .h2 rfl rfl,
    (hdelivers 1 .h2 reply (by rw [hsent]; rfl)).station hsecond .h1 rfl rfl⟩

/-- The switch of `h1` forgets it first, and the other one then sends a frame for it back. -/
def outOfOrder : List (Event TwoSwitches) :=
  [.send .h1 request, .receive .h1 .s1 0, .dispatch .s1 0, .accept .s1 .h3, .receive .s1 .s2 0,
    .dispatch .s2 0, .accept .s2 .h2, .sweep .s1 31,
    .send .h3 ⟨TwoSwitches.mac .h1, TwoSwitches.mac .h3, []⟩,
    .receive .h3 .s1 32, .dispatch .s1 32, .accept .s1 .h1, .receive .s1 .s2 32,
    .dispatch .s2 32, .receive .s2 .s1 32, .dispatch .s1 32, .accept .s1 .h1, .accept .s1 .h3]

/-- Out of order a frame comes to its station twice, and to its sender. -/
theorem arrives_twice : ∃ w : World TwoSwitches,
    Reaches (step twoSwitches) anyStep (fun w => w = World.initial) w ∧
      w.arrivals 1 .h1 = 2 ∧ w.arrivals 1 .h3 = 1 :=
  exists_of_exec_from World.initial outOfOrder _ (by decide +kernel)

end Instance

end NetworkLab.SwitchNetwork
