import NetworkLab.SwitchNetwork

/-!
# What connected switches learn

As long as entries age out in order, every entry leads towards the station whose address it has,
and the next switch on the way has an entry as well. A frame that is flooded to a switch for want
of an entry therefore never meets one there that would send it back: frames that could have made
the entry are behind it on the link.
-/
namespace NetworkLab.SwitchNetwork
open GuardedRuns TreeDirections
open LearningSwitch (Mac MacPortMap Frame Ustack insertMacPort lookupPort sweepAgedMacPortEntry
  forward)

variable {V : Type*} {s : Site V} {w w' : World V} {u v x p : V} {a : Mac} {c : Copy}

/-- The node is the station of the address or has an entry for it. -/
def Knows (s : Site V) (w : World V) (v : V) (a : Mac) : Prop :=
  s.station v = true ∧ s.mac v = a ∨ (ifaceOf (w.table v) a).isSome

/-- The link leads towards the station of the address. -/
def Onward (s : Site V) (u v : V) (a : Mac) : Prop :=
  ∃ d, s.station d = true ∧ s.mac d = a ∧ Nearer s.graph d u v

/-- The copy is one of a frame that a station has sent, and leads away from the station. -/
def Sourced (s : Site V) (w : World V) (u v : V) (c : Copy) : Prop :=
  ∃ x, w.sent[c.id]? = some (x, c.frame) ∧ Nearer s.graph x v u

theorem Onward.nearer {d : V} (h : Onward s u v (s.mac d)) (hd : s.station d = true) :
    Nearer s.graph d u v := by
  obtain ⟨d', hd', hmac, hnear⟩ := h
  rwa [s.mac_injective d' d hd' hd hmac] at hnear

variable [DecidableEq V]

structure World.Right (s : Site V) (w : World V) : Prop where
  stations : ∀ x f, (x, f) ∈ w.sent →
    s.station x = true ∧ f.etherShost = s.mac x ∧ f.etherDhost ≠ s.mac x
  idle : ∀ x, s.station x = true → w.pending x = none ∧ ∀ a, ifaceOf (w.table x) a = none
  sourced : ∀ u v, ∀ c ∈ w.transit u v, Sourced s w u v c
  known : ∀ u v, ∀ c ∈ w.transit u v, Knows s w u c.frame.etherShost
  learned : ∀ v u c, w.pending v = some (u, c) → Knows s w v c.frame.etherShost
  entries : ∀ v a u, ifaceOf (w.table v) a = some u → Onward s v u a ∧ Knows s w u a
  onward : ∀ u v, ∀ c ∈ w.transit u v, Onward s u v c.frame.etherDhost ∨
    ifaceOf (w.table v) c.frame.etherDhost = none
  ordered : ∀ u v, (w.transit u v).Pairwise fun g c => Onward s u v c.frame.etherDhost ∨
    g.frame.etherShost ≠ c.frame.etherDhost

theorem World.right_initial (s : Site V) : (World.initial : World V).Right s where
  stations x f hx := absurd hx List.not_mem_nil
  idle x _ := ⟨rfl, fun a => by simp [World.initial, ifaceOf]⟩
  sourced u v c hc := absurd hc List.not_mem_nil
  known u v c hc := absurd hc List.not_mem_nil
  learned v u c hc := by cases hc
  entries v a u hu := by simp [World.initial, ifaceOf] at hu
  onward u v c hc := absurd hc List.not_mem_nil
  ordered u v := List.Pairwise.nil

/-- The frame that a copy in transit is of. -/
theorem World.Right.source (h : w.Right s) (hc : c ∈ w.transit u v) :
    ∃ x, s.station x = true ∧ s.mac x = c.frame.etherShost ∧ c.frame.etherDhost ≠ s.mac x ∧
      Nearer s.graph x v u ∧ w.sent[c.id]? = some (x, c.frame) := by
  obtain ⟨x, hsent, hnear⟩ := h.sourced u v c hc
  obtain ⟨hx, hsrc, hdst⟩ := h.stations x c.frame (List.mem_of_getElem? hsent)
  exact ⟨x, hx, hsrc.symm, hdst, hnear, hsent⟩

/-- A node that does not know the address has no neighbour that sends frames for it there. -/
theorem World.Right.onward_of_not_knows (h : w.Right s) (hadj : s.graph.Adj u v)
    (hnot : ¬ Knows s w u a) : Onward s u v a ∨ ifaceOf (w.table v) a = none := by
  cases hentry : ifaceOf (w.table v) a with
  | none => exact .inr rfl
  | some p =>
    obtain ⟨⟨d, hd, hmac, hnear⟩, hknows⟩ := h.entries v a p hentry
    have hne : u ≠ p := fun heq => hnot (heq ▸ hknows)
    exact .inl ⟨d, hd, hmac, hnear.away s.isTree hadj.symm hne⟩

section Extend

/-- What a copy must be like when it is put on a link. -/
structure Fit (s : Site V) (w w' : World V) (u v : V) (c : Copy) : Prop where
  sourced : Sourced s w' u v c
  known : Knows s w u c.frame.etherShost
  onward : Onward s u v c.frame.etherDhost ∨ ¬ Knows s w u c.frame.etherDhost

/-- Steps that take copies from links and put others on, and leave the entries as they are. -/
structure World.Extends (s : Site V) (w w' : World V) : Prop where
  table : ∀ v a, ifaceOf (w'.table v) a = ifaceOf (w.table v) a
  sent : ∀ (k : ℕ) (m : V × Frame), w.sent[k]? = some m → w'.sent[k]? = some m
  stations : ∀ x f, (x, f) ∈ w'.sent →
    s.station x = true ∧ f.etherShost = s.mac x ∧ f.etherDhost ≠ s.mac x
  pending : ∀ v p, w'.pending v = some p → w.pending v = some p
  transit : ∀ u v, ∃ l, l.Sublist (w.transit u v) ∧
    (w'.transit u v = l ∨ ∃ c, w'.transit u v = l ++ [c] ∧ Fit s w w' u v c)

theorem World.Extends.knows (h : w.Extends s w') : Knows s w' v a ↔ Knows s w v a := by
  rw [Knows, Knows, h.table]

theorem World.Extends.cases (h : w.Extends s w') (hc : c ∈ w'.transit u v) :
    c ∈ w.transit u v ∨ Fit s w w' u v c := by
  obtain ⟨l, hl, htransit | ⟨c', htransit, hfit⟩⟩ := h.transit u v
  · rw [htransit] at hc
    exact .inl (hl.subset hc)
  · rw [htransit] at hc
    rcases List.mem_append.mp hc with hc | hc
    · exact .inl (hl.subset hc)
    · obtain rfl := List.mem_singleton.mp hc
      exact .inr hfit

theorem World.Right.extend (h : w.Right s) (he : w.Extends s w') : w'.Right s where
  stations := he.stations
  idle x hx := by
    obtain ⟨hpending, htable⟩ := h.idle x hx
    refine ⟨?_, fun a => by rw [he.table, htable]⟩
    cases hp : w'.pending x with
    | none => rfl
    | some p => rw [he.pending x p hp] at hpending; cases hpending
  sourced u v c hc := by
    rcases he.cases hc with hold | hfit
    · obtain ⟨x, hsent, hnear⟩ := h.sourced u v c hold
      exact ⟨x, he.sent _ _ hsent, hnear⟩
    · exact hfit.sourced
  known u v c hc := by
    rw [he.knows]
    rcases he.cases hc with hold | hfit
    · exact h.known u v c hold
    · exact hfit.known
  learned v u c hp := he.knows.mpr (h.learned v u c (he.pending _ _ hp))
  entries v a u hu := by
    rw [he.table] at hu
    rw [he.knows]
    exact h.entries v a u hu
  onward u v c hc := by
    rw [he.table]
    rcases he.cases hc with hold | hfit
    · exact h.onward u v c hold
    · obtain ⟨x, -, hnear⟩ := hfit.sourced
      rcases hfit.onward with honward | hnot
      · exact .inl honward
      · exact h.onward_of_not_knows hnear.adj.symm hnot
  ordered u v := by
    obtain ⟨l, hl, htransit | ⟨c, htransit, hfit⟩⟩ := he.transit u v
    · rw [htransit]
      exact (h.ordered u v).sublist hl
    · rw [htransit]
      refine List.pairwise_append.mpr ⟨(h.ordered u v).sublist hl, List.pairwise_singleton _ _, ?_⟩
      intro g hg c' hc'
      obtain rfl := List.mem_singleton.mp hc'
      rcases hfit.onward with honward | hnot
      · exact .inl honward
      · exact .inr fun heq => hnot (heq ▸ h.known u v g (hl.subset hg))

end Extend

section Learn

/-- The world after a switch has taken a frame from a link and learned its source. -/
def World.learned (w : World V) (u v : V) (c : Copy) (now : ℤ) : World V :=
  { w with
    table := Function.update w.table v (insertMacPort (w.table v) c.frame.etherShost u now)
    pending := Function.update w.pending v (some (u, c))
    link := w.take u v 0 }

variable {rest : List Copy} {now : ℤ} {b b' : V}

theorem World.learned_transit (hlink : w.link u v = c :: rest) (hpending : w.pending v = none) :
    (w.learned u v c now).transit b b' = w.transit b b' := by
  by_cases hb' : b' = v
  · subst hb'
    rw [World.transit_of_none hpending]
    by_cases hb : b = u
    · subst hb
      rw [World.transit_of_pending (Function.update_self ..)]
      simp only [World.learned, World.take_self, hlink, List.eraseIdx_cons_zero]
    · rw [World.transit_of_other (Function.update_self ..) hb]
      exact World.take_of_ne 0 fun heq => hb heq.1
  · simp only [World.transit, World.learned, Function.update_of_ne hb']
    rw [World.take_of_ne 0 fun heq => hb' heq.2]

theorem World.learned_table : ifaceOf ((w.learned u v c now).table b) a =
    if b = v ∧ c.frame.etherShost = a then some ((ifaceOf (w.table b) a).getD u)
    else ifaceOf (w.table b) a := by
  by_cases hb : b = v
  · subst hb
    simp only [World.learned, Function.update_self, ifaceOf_insertMacPort, true_and]
  · simp [World.learned, hb]

theorem World.learned_pending {q : V × Copy} (hq : (w.learned u v c now).pending b = some q) :
    b = v ∧ q = (u, c) ∨ w.pending b = some q := by
  by_cases hb : b = v
  · subst hb
    simp only [World.learned, Function.update_self, Option.some.injEq] at hq
    exact .inl ⟨rfl, hq.symm⟩
  · simp only [World.learned, Function.update_of_ne hb] at hq
    exact .inr hq

theorem Knows.learned (h : Knows s w b a) : Knows s (w.learned u v c now) b a := by
  refine h.imp_right fun hsome => ?_
  rw [World.learned_table]
  split_ifs
  · rfl
  · exact hsome

/-- The new entry leads to where the frame has come from. -/
theorem World.Right.learned_entries (h : w.Right s) (hmem : c ∈ w.transit u v)
    (hp : ifaceOf ((w.learned u v c now).table b) a = some p) :
    Onward s b p a ∧ Knows s (w.learned u v c now) p a := by
  obtain ⟨x, hx, hsrc, -, hnear, -⟩ := h.source hmem
  rw [World.learned_table] at hp
  split_ifs at hp with hnew
  · obtain ⟨rfl, rfl⟩ := hnew
    cases hold : ifaceOf (w.table b) c.frame.etherShost with
    | some q =>
      rw [hold] at hp
      obtain rfl : q = p := Option.some.inj hp
      obtain ⟨honward, hk⟩ := h.entries b _ q hold
      exact ⟨honward, hk.learned⟩
    | none =>
      rw [hold] at hp
      obtain rfl : u = p := Option.some.inj hp
      exact ⟨⟨x, hx, hsrc, hnear⟩, (h.known u b c hmem).learned⟩
  · obtain ⟨honward, hk⟩ := h.entries b a p hp
    exact ⟨honward, hk.learned⟩

/-- The new entry sends back no frame that is on a link to the switch. -/
theorem World.Right.learned_onward (h : w.Right s) (hlink : w.link u v = c :: rest)
    (hpending : w.pending v = none) {c' : Copy} (hc' : c' ∈ w.transit b b') :
    Onward s b b' c'.frame.etherDhost ∨
      ifaceOf ((w.learned u v c now).table b') c'.frame.etherDhost = none := by
  have htransit : w.transit u v = c :: rest := by
    rw [World.transit_of_none hpending, hlink]
  obtain ⟨x, hx, hsrc, hdst, hnear, -⟩ := h.source (htransit ▸ List.mem_cons_self)
  rw [World.learned_table]
  split_ifs with hnew
  · obtain ⟨rfl, hsame⟩ := hnew
    obtain ⟨y, -, hnear'⟩ := h.sourced b b' c' hc'
    by_cases hb : b = u
    · subst hb
      rw [htransit] at hc'
      rcases List.mem_cons.mp hc' with rfl | hrest
      · exact absurd hsame.symm (hsrc ▸ hdst)
      · have hordered := h.ordered b b'
        rw [htransit] at hordered
        exact .inl (((List.pairwise_cons.mp hordered).1 c' hrest).resolve_right fun hne =>
          hne hsame)
    · exact .inl ⟨x, hx, hsrc.trans hsame, hnear.away s.isTree hnear'.adj hb⟩
  · exact h.onward b b' c' hc'

theorem World.Right.learn (h : w.Right s) (hlink : w.link u v = c :: rest)
    (hpending : w.pending v = none) (hstation : s.station v = false) :
    (w.learned u v c now).Right s := by
  have hmem : c ∈ w.transit u v := by
    rw [World.transit_of_none hpending, hlink]
    exact List.mem_cons_self
  constructor
  · exact h.stations
  · intro y hy
    have hne : y ≠ v := fun heq => by rw [heq, hstation] at hy; cases hy
    obtain ⟨hnone, hempty⟩ := h.idle y hy
    refine ⟨?_, fun a => by rw [World.learned_table, if_neg fun heq => hne heq.1, hempty]⟩
    simpa only [World.learned, Function.update_of_ne hne] using hnone
  · intro b b' c' hc'
    rw [World.learned_transit hlink hpending] at hc'
    exact h.sourced b b' c' hc'
  · intro b b' c' hc'
    rw [World.learned_transit hlink hpending] at hc'
    exact (h.known b b' c' hc').learned
  · intro b b' c' hc'
    rcases World.learned_pending hc' with ⟨rfl, heq⟩ | hold
    · obtain ⟨-, rfl⟩ := Prod.mk.inj heq
      refine .inr ?_
      rw [World.learned_table, if_pos ⟨rfl, rfl⟩]
      rfl
    · exact (h.learned b b' c' hold).learned
  · exact fun b a p hp => h.learned_entries hmem hp
  · intro b b' c' hc'
    rw [World.learned_transit hlink hpending] at hc'
    exact h.learned_onward hlink hpending hc'
  · intro b b'
    rw [World.learned_transit hlink hpending]
    exact h.ordered b b'

end Learn

section Forget

/-- The world after the sweeper of a switch has run. -/
def World.swept (w : World V) (v : V) (now : ℤ) : World V :=
  { w with table := Function.update w.table v (sweepAgedMacPortEntry (w.table v) now) }

variable {now : ℤ} {b : V}

theorem World.swept_table (hp : ifaceOf ((w.swept v now).table b) a = some p) :
    ifaceOf (w.table b) a = some p := by
  by_cases hb : b = v
  · subst hb
    simp only [World.swept, Function.update_self] at hp
    exact ifaceOf_of_sweep hp
  · simpa only [World.swept, Function.update_of_ne hb] using hp

theorem World.swept_none (hnone : ifaceOf (w.table b) a = none) :
    ifaceOf ((w.swept v now).table b) a = none := by
  rw [Option.eq_none_iff_forall_ne_some]
  intro p hp
  rw [World.swept_table hp] at hnone
  cases hnone

/-- A node still knows a station unless the sweep has taken its entry. -/
theorem Knows.swept (hk : Knows s w b (s.mac x))
    (hkeep : b = v → ifaceOf (w.table v) (s.mac x) ≠ none →
      ifaceOf (sweepAgedMacPortEntry (w.table v) now) (s.mac x) ≠ none) :
    Knows s (w.swept v now) b (s.mac x) := by
  refine hk.imp_right fun hsome => ?_
  by_cases hb : b = v
  · subst hb
    simp only [World.swept, Function.update_self]
    exact Option.isSome_iff_ne_none.mpr (hkeep rfl (Option.isSome_iff_ne_none.mp hsome))
  · simpa only [World.swept, Function.update_of_ne hb] using hsome

/-- A switch forgets stations in order. -/
theorem World.Right.forget (h : w.Right s) (hok : Orderly s w (.sweep v now)) :
    (w.swept v now).Right s := by
  constructor
  · exact h.stations
  · exact fun x hx => ⟨(h.idle x hx).1, fun a => World.swept_none ((h.idle x hx).2 a)⟩
  · exact h.sourced
  · intro a b c hc
    obtain ⟨x, hx, hsrc, -⟩ := h.source hc
    have hknown := h.known a b c hc
    rw [← hsrc] at hknown ⊢
    refine hknown.swept fun ha hhad hgone => ?_
    subst ha
    exact ((hok x hx hhad hgone).2 b).2 c hc hsrc.symm
  · intro b u c hp
    have hpending : w.pending b = some (u, c) := hp
    have hmem : c ∈ w.transit u b := by
      rw [World.transit_of_pending hpending]
      exact List.mem_cons_self
    obtain ⟨x, hx, hsrc, -⟩ := h.source hmem
    have hlearned := h.learned b u c hp
    rw [← hsrc] at hlearned ⊢
    refine hlearned.swept fun hb hhad hgone => ?_
    subst hb
    exact (hok x hx hhad hgone).1 _ hp hsrc.symm
  · intro b a u hu
    obtain ⟨honward, hk⟩ := h.entries b a u (World.swept_table hu)
    refine ⟨honward, ?_⟩
    obtain ⟨x, hx, rfl, -⟩ := honward
    refine hk.swept fun hb hhad hgone => ?_
    subst hb
    exact ((hok x hx hhad hgone).2 b).1 (World.swept_table hu)
  · exact fun a b c hc => (h.onward a b c hc).imp_right World.swept_none
  · exact h.ordered

end Forget

end NetworkLab.SwitchNetwork
