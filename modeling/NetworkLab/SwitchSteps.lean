import NetworkLab.SwitchLearning

/-!
# The steps of a network of learning switches

What each step takes from the links and puts on them. From any step to the next, what the tables
and the frames on the links say of each other stays right.
-/
namespace NetworkLab.SwitchNetwork
open GuardedRuns TreeDirections
open LearningSwitch (Mac Frame lookupPort sweepAgedMacPortEntry forward)

variable {V : Type*} [DecidableEq V] {s : Site V} {w w' : World V}

section Steps

/-- The world after a station has sent a frame. -/
def World.posted (s : Site V) (w : World V) (x : V) (f : Frame) : World V :=
  { w with
    link := w.put x w.sent.length ((s.ustack x).ifaceList.map fun p => (p, f))
    sent := w.sent ++ [(x, f)] }

/-- The interfaces that a switch sends a frame on. -/
def World.outs (s : Site V) (w : World V) (u v : V) (c : Copy) : List V :=
  SwitchNetwork.outs (s.ustack v) u (ifaceOf (w.table v) c.frame.etherDhost)

/-- The world after a switch has sent a frame on. -/
def World.passed (s : Site V) (w : World V) (u v : V) (c : Copy) (now : ℤ) : World V :=
  { w with
    table := Function.update w.table v (lookupPort (w.table v) c.frame.etherDhost now).2
    pending := Function.update w.pending v none
    link := w.put v c.id ((w.outs s u v c).map fun p => (p, c.frame))
    arrived := w.arrived ++ [(u, v, c.id)] }

/-- The world after a station has taken a frame. -/
def World.accepted (w : World V) (u v : V) (c : Copy) : World V :=
  { w with link := w.take u v 0, arrived := w.arrived ++ [(u, v, c.id)] }

/-- The world after the loss of a frame. -/
def World.dropped (w : World V) (u v : V) (k : ℕ) (c : Copy) : World V :=
  { w with link := w.take u v k, lost := w.lost ++ [(u, v, c.id)] }

inductive World.Stepped (s : Site V) (w : World V) : Event V → World V → Prop
  | send {x : V} {f : Frame} (hstation : s.station x = true) :
      World.Stepped s w (.send x f) (w.posted s x f)
  | receive {u v : V} {now : ℤ} {c : Copy} {rest : List Copy} (hlink : w.link u v = c :: rest)
      (hpending : w.pending v = none) (hstation : s.station v = false) :
      World.Stepped s w (.receive u v now) (w.learned u v c now)
  | dispatch {u v : V} {now : ℤ} {c : Copy} (hpending : w.pending v = some (u, c)) :
      World.Stepped s w (.dispatch v now) (w.passed s u v c now)
  | accept {u v : V} {c : Copy} {rest : List Copy} (hlink : w.link u v = c :: rest)
      (hstation : s.station v = true) : World.Stepped s w (.accept u v) (w.accepted u v c)
  | sweep {v : V} {now : ℤ} : World.Stepped s w (.sweep v now) (w.swept v now)
  | lose {u v : V} {k : ℕ} {c : Copy} (hlink : (w.link u v)[k]? = some c) :
      World.Stepped s w (.lose u v k) (w.dropped u v k c)

theorem World.stepped {e : Event V} (h : step s w e = some w') : w.Stepped s e w' := by
  cases e with
  | send x f =>
    rw [step] at h
    split_ifs at h with hstation
    obtain rfl := Option.some.inj h
    exact .send hstation
  | receive u v now =>
    rw [step] at h
    split at h
    next c rest hlink hpending hstation =>
      obtain rfl := Option.some.inj h
      exact .receive hlink hpending hstation
    next => cases h
  | dispatch v now =>
    rw [step] at h
    split at h
    next u c hpending =>
      rw [forward_eq, lookupPort_eq_ifaceOf] at h
      obtain rfl := Option.some.inj h
      exact .dispatch hpending
    next => cases h
  | accept u v =>
    rw [step] at h
    split at h
    next c rest hlink hstation =>
      obtain rfl := Option.some.inj h
      exact .accept hlink hstation
    next => cases h
  | sweep v now =>
    obtain rfl := Option.some.inj h
    exact .sweep
  | lose u v k =>
    rw [step] at h
    split at h
    next c hlink =>
      obtain rfl := Option.some.inj h
      exact .lose hlink
    next => cases h

end Steps

section Moves

variable {u v a b : V} {c : Copy} {ps : List V} {gone : V → V → List Copy}

/-- Copies leave links, and copies of one are put on the links of a node. -/
def World.Moved (w w' : World V) (gone : V → V → List Copy) (v : V) (c : Copy)
    (ps : List V) : Prop :=
  ∀ a b, ∃ l, l.Sublist (w.transit a b) ∧ (w.transit a b).Perm (gone a b ++ l) ∧
    w'.transit a b = l ++ if a = v then List.replicate (ps.count b) c else []

/-- One copy on one link. -/
def single (u v : V) (c : Copy) (a b : V) : List Copy := if a = u ∧ b = v then [c] else []

theorem World.moved_posted {x : V} {f : Frame} : w.Moved (w.posted s x f) (fun _ _ => []) x
    ⟨w.sent.length, f⟩ (s.ustack x).ifaceList := by
  intro a b
  refine ⟨w.transit a b, .refl _, .refl _, ?_⟩
  simp only [World.transit, World.posted, World.put_map]
  split
  · split_ifs <;> simp
  · simp

theorem World.moved_passed {now : ℤ} (hpending : w.pending v = some (u, c)) :
    w.Moved (w.passed s u v c now) (single u v c) v c (w.outs s u v c) := by
  intro a b
  by_cases hb : b = v
  · subst hb
    refine ⟨w.link a b, w.link_sublist a b, ?_, ?_⟩
    · by_cases ha : a = u
      · subst ha
        simp [single, World.transit_of_pending hpending]
      · simp [single, ha, World.transit_of_other hpending ha]
    · rw [World.transit_of_none (Function.update_self ..)]
      exact w.put_map b c.id _ c.frame a b
  · refine ⟨w.transit a b, .refl _, by simp [single, hb], ?_⟩
    simp only [World.transit, World.passed, Function.update_of_ne hb, World.put_map]
    split
    · split_ifs <;> simp
    · simp

/-- A copy leaves a link to a node that has none pending from there. -/
theorem World.moved_take {k : ℕ} (hlink : (w.link u v)[k]? = some c)
    (hpending : w'.pending = w.pending) (hlink' : w'.link = w.take u v k) :
    w.Moved w' (single u v c) v c [] := by
  obtain ⟨hlt, rfl⟩ := List.getElem?_eq_some_iff.mp hlink
  intro a b
  by_cases hab : a = u ∧ b = v
  · obtain ⟨rfl, rfl⟩ := hab
    have hperm := (List.getElem_cons_eraseIdx_perm hlt).symm
    have hsub : ((w.link a b).eraseIdx k).Sublist (w.link a b) := List.eraseIdx_sublist _ _
    refine ⟨w'.transit a b, ?_, ?_, by simp⟩
    · simp only [World.transit, hpending, hlink', World.take_self]
      split
      · split_ifs
        · exact hsub.cons_cons _
        · exact hsub
      · exact hsub
    · simp only [single, and_self, if_true, World.transit, hpending, hlink', World.take_self]
      split
      · split_ifs
        · exact (hperm.cons _).trans (.swap _ _ _)
        · exact hperm
      · exact hperm
  · refine ⟨w.transit a b, .refl _, by simp [single, hab], ?_⟩
    simp only [World.transit, hpending, hlink', World.take_of_ne k hab]
    simp

theorem World.Moved.extends_transit (h : w.Moved w' gone v c ps) (hps : ps.Nodup)
    (hfit : ∀ b ∈ ps, Fit s w w' v b c) (a b : V) : ∃ l, l.Sublist (w.transit a b) ∧
      (w'.transit a b = l ∨ ∃ c, w'.transit a b = l ++ [c] ∧ Fit s w w' a b c) := by
  obtain ⟨l, hl, -, htransit⟩ := h a b
  refine ⟨l, hl, ?_⟩
  by_cases ha : a = v
  · subst ha
    by_cases hb : b ∈ ps
    · rw [if_pos rfl, List.count_eq_one_of_mem hps hb] at htransit
      exact .inr ⟨c, htransit, hfit b hb⟩
    · rw [if_pos rfl, List.count_eq_zero_of_not_mem hb] at htransit
      exact .inl (htransit.trans (List.append_nil l))
  · rw [if_neg ha] at htransit
    exact .inl (htransit.trans (List.append_nil l))

theorem World.Moved.countP (h : w.Moved w' gone v c ps) (k : ℕ) (a b : V) :
    (w'.transit a b).countP (fun c => decide (c.id = k)) +
        (gone a b).countP (fun c => decide (c.id = k)) =
      (w.transit a b).countP (fun c => decide (c.id = k)) +
        if k = c.id ∧ a = v then ps.count b else 0 := by
  obtain ⟨l, -, hperm, htransit⟩ := h a b
  rw [htransit, hperm.countP_eq, List.countP_append, List.countP_append]
  by_cases ha : a = v
  · by_cases hk : k = c.id
    · simp [ha, hk, List.countP_replicate]
      omega
    · simp [ha, hk, Ne.symm hk, List.countP_replicate]
      omega
  · simp [ha]
    omega

end Moves

section Runs

variable {u v : V} {c : Copy}

theorem World.Right.extends_posted {x : V} {f : Frame} (h : w.Right s)
    (hstation : s.station x = true) (hok : Orderly s w (.send x f)) :
    w.Extends s (w.posted s x f) where
  table _ _ := rfl
  sent k m hm := by
    obtain ⟨hlt, -⟩ := List.getElem?_eq_some_iff.mp hm
    simp only [World.posted]
    rwa [List.getElem?_append_left hlt]
  stations y g hy := by
    rcases List.mem_append.mp hy with hold | hnew
    · exact h.stations y g hold
    · obtain ⟨rfl, rfl⟩ := Prod.mk.inj (List.mem_singleton.mp hnew)
      exact ⟨hstation, hok⟩
  pending _ _ hp := hp
  transit := World.moved_posted.extends_transit (s.ustack x).nodup fun b hb => by
    have hadj := (s.mem_ifaceList x b).mp hb
    constructor
    · refine ⟨x, by simp [World.posted], ?_⟩
      exact (nearer_or_nearer s.isTree x hadj).resolve_left not_nearer_self
    · exact .inl ⟨hstation, hok.1.symm⟩
    · refine .inr fun hk => ?_
      rcases hk with ⟨-, hsame⟩ | hsome
      · exact hok.2 hsame.symm
      · rw [(h.idle x hstation).2] at hsome
        cases hsome

/-- A switch sends a frame on, but not back to where it has come from. -/
theorem World.Right.mem_outs (h : w.Right s) (hpending : w.pending v = some (u, c)) {b : V}
    (hb : b ∈ w.outs s u v c) : s.graph.Adj v b ∧ b ≠ u ∧
      (Onward s v b c.frame.etherDhost ∨ ¬ Knows s w v c.frame.etherDhost) := by
  have hmem : c ∈ w.transit u v := by
    rw [World.transit_of_pending hpending]
    exact List.mem_cons_self
  have hswitch : ¬ s.station v = true := fun hv => by
    rw [(h.idle v hv).1] at hpending
    cases hpending
  unfold World.outs SwitchNetwork.outs at hb
  split at hb
  next p hdest =>
    obtain rfl := List.mem_singleton.mp hb
    obtain ⟨honward, -⟩ := h.entries v _ b hdest
    obtain ⟨d, hd, hmac, hnear⟩ := honward
    refine ⟨hnear.adj, ?_, .inl ⟨d, hd, hmac, hnear⟩⟩
    rintro rfl
    rcases h.onward b v c hmem with hback | hnone
    · exact hnear.not_symm ((hmac ▸ hback : Onward s b v (s.mac d)).nearer hd)
    · rw [hdest] at hnone
      cases hnone
  next hdest =>
    obtain ⟨hiface, hne⟩ := List.mem_filter.mp hb
    refine ⟨(s.mem_ifaceList v b).mp hiface, of_decide_eq_true hne, .inr fun hk => ?_⟩
    rcases hk with ⟨hv, -⟩ | hsome
    · exact hswitch hv
    · rw [hdest] at hsome
      cases hsome

theorem World.Right.extends_passed {now : ℤ} (h : w.Right s)
    (hpending : w.pending v = some (u, c)) : w.Extends s (w.passed s u v c now) where
  table b a := by
    by_cases hb : b = v
    · subst hb
      simp [World.passed]
    · simp [World.passed, hb]
  sent _ _ hm := hm
  stations := h.stations
  pending b p hp := by
    by_cases hb : b = v
    · subst hb
      simp [World.passed] at hp
    · simpa only [World.passed, Function.update_of_ne hb] using hp
  transit := (World.moved_passed hpending).extends_transit (nodup_outs _ _ _) fun b hb => by
    have hmem : c ∈ w.transit u v := by
      rw [World.transit_of_pending hpending]
      exact List.mem_cons_self
    obtain ⟨hadj, hne, honward⟩ := h.mem_outs hpending hb
    obtain ⟨x, hsent, hnear⟩ := h.sourced u v c hmem
    exact ⟨⟨x, hsent, hnear.away s.isTree hadj hne⟩, h.learned v u c hpending, honward⟩

/-- Taking a copy from a link changes nothing else. -/
theorem World.Right.extends_take {k : ℕ} (h : w.Right s) (hlink : (w.link u v)[k]? = some c)
    (htable : w'.table = w.table) (hpending : w'.pending = w.pending)
    (hlink' : w'.link = w.take u v k) (hsent : w'.sent = w.sent) : w.Extends s w' where
  table _ _ := by rw [htable]
  sent _ _ hm := hsent ▸ hm
  stations := hsent ▸ h.stations
  pending _ _ hp := hpending ▸ hp
  transit := (World.moved_take hlink hpending hlink').extends_transit List.nodup_nil
    fun _ hb => absurd hb List.not_mem_nil

theorem World.Right.step {e : Event V} (h : w.Right s) (hok : Orderly s w e)
    (hs : step s w e = some w') : w'.Right s := by
  cases World.stepped hs with
  | send hstation => exact h.extend (h.extends_posted hstation hok)
  | receive hlink hpending hstation => exact h.learn hlink hpending hstation
  | dispatch hpending => exact h.extend (h.extends_passed hpending)
  | accept hlink hstation => exact h.extend (h.extends_take (by rw [hlink]; rfl) rfl rfl rfl rfl)
  | sweep => exact h.forget hok
  | lose hlink => exact h.extend (h.extends_take hlink rfl rfl rfl rfl)

end Runs

end NetworkLab.SwitchNetwork
