import NetworkLab.LearningSwitch
import NetworkLab.TreeDirections

/-!
# Learning switches that are connected to each other

Stations and switches whose links form a tree. Frames stay in order on a link, and can be lost.
Two ends of a link name each other as interface. A switch handles one frame at a time, in the two
critical sections of `handle_packet`, and the sweeps of its other thread come in between.
-/
namespace NetworkLab.SwitchNetwork
open GuardedRuns TreeDirections
open LearningSwitch (Mac MacPortMap Frame Ustack view insertMacPort lookupPort
  sweepAgedMacPortEntry forward)

variable {V : Type*}

structure Site (V : Type*) where
  graph : SimpleGraph V
  isTree : graph.IsTree
  ustack : V → Ustack V
  mem_ifaceList : ∀ v w, w ∈ (ustack v).ifaceList ↔ graph.Adj v w
  station : V → Bool
  one_iface : ∀ x, station x = true → ∃ y, (ustack x).ifaceList = [y]
  mac : V → Mac
  mac_injective : ∀ x y, station x = true → station y = true → mac x = mac y → x = y

/-- A frame with the number of its transmission by a station. -/
structure Copy where
  id : ℕ
  frame : Frame

/-- Switch tables, the frames between their two table accesses, the links with their oldest frame
first, and what has been sent by stations, has arrived and is lost. -/
structure World (V : Type*) where
  table : V → MacPortMap V
  pending : V → Option (V × Copy)
  link : V → V → List Copy
  sent : List (V × Frame)
  arrived : List (V × V × ℕ)
  lost : List (V × V × ℕ)

def World.initial : World V :=
  ⟨fun _ => BucketTable.empty, fun _ => none, fun _ _ => [], [], [], []⟩

inductive Event (V : Type*)
  | send (x : V) (f : Frame)
  | receive (u v : V) (now : ℤ)
  | dispatch (v : V) (now : ℤ)
  | accept (u v : V)
  | sweep (v : V) (now : ℤ)
  | lose (u v : V) (k : ℕ)

/-- The interface of an address, if it has an entry. -/
def ifaceOf (m : MacPortMap V) (a : Mac) : Option V := (view m a).map Prod.fst

section Model

variable [DecidableEq V]

/-- The links after a node has sent on its interfaces. -/
def World.put (w : World V) (v : V) (id : ℕ) (sends : List (V × Frame)) : V → V → List Copy :=
  Function.update w.link v fun p =>
    w.link v p ++ (sends.filter fun m => decide (m.1 = p)).map fun m => ⟨id, m.2⟩

/-- The links after a frame has left one of them. -/
def World.take (w : World V) (u v : V) (k : ℕ) : V → V → List Copy :=
  Function.update w.link u (Function.update (w.link u) v ((w.link u v).eraseIdx k))

/-- A station sends a frame; a switch learns its source, then looks its destination up and sends
it on; a station takes a frame; a sweeper runs; a frame is lost. -/
def step (s : Site V) (w : World V) : Event V → Option (World V)
  | .send x f =>
    if s.station x then
      some { w with
        link := w.put x w.sent.length ((s.ustack x).ifaceList.map fun p => (p, f))
        sent := w.sent ++ [(x, f)] }
    else none
  | .receive u v now =>
    match w.link u v, w.pending v, s.station v with
    | c :: _, none, false => some { w with
        table := Function.update w.table v (insertMacPort (w.table v) c.frame.etherShost u now)
        pending := Function.update w.pending v (some (u, c))
        link := w.take u v 0 }
    | _, _, _ => none
  | .dispatch v now =>
    match w.pending v with
    | some (u, c) => some { w with
        table := Function.update w.table v (lookupPort (w.table v) c.frame.etherDhost now).2
        pending := Function.update w.pending v none
        link := w.put v c.id
          (forward (s.ustack v) u c.frame (lookupPort (w.table v) c.frame.etherDhost now).1)
        arrived := w.arrived ++ [(u, v, c.id)] }
    | none => none
  | .accept u v =>
    match w.link u v, s.station v with
    | c :: _, true => some { w with
        link := w.take u v 0, arrived := w.arrived ++ [(u, v, c.id)] }
    | _, _ => none
  | .sweep v now =>
    some { w with
      table := Function.update w.table v (sweepAgedMacPortEntry (w.table v) now) }
  | .lose u v k =>
    match (w.link u v)[k]? with
    | some c => some { w with link := w.take u v k, lost := w.lost ++ [(u, v, c.id)] }
    | none => none

/-- The frames from `u` that `v` has not dispatched yet, in order. -/
def World.transit (w : World V) (u v : V) : List Copy :=
  match w.pending v with
  | some p => if p.1 = u then p.2 :: w.link u v else w.link u v
  | none => w.link u v

/-- Stations send under their own address, and not to themselves. A switch forgets a station only
when no other switch sends its frames there for it, and when it has sent on all frames of the
station itself. -/
def Orderly (s : Site V) (w : World V) : Event V → Prop
  | .send x f => f.etherShost = s.mac x ∧ f.etherDhost ≠ s.mac x
  | .sweep v now => ∀ x, s.station x = true → ifaceOf (w.table v) (s.mac x) ≠ none →
      ifaceOf (sweepAgedMacPortEntry (w.table v) now) (s.mac x) = none →
      (∀ p ∈ w.pending v, p.2.frame.etherShost ≠ s.mac x) ∧
      ∀ u, ifaceOf (w.table u) (s.mac x) ≠ some v ∧
        ∀ c ∈ w.transit v u, c.frame.etherShost ≠ s.mac x
  | .receive _ _ _ | .dispatch _ _ | .accept _ _ | .lose _ _ _ => True

instance [Fintype V] (s : Site V) (w : World V) : (e : Event V) → Decidable (Orderly s w e)
  | .send _ _ => inferInstanceAs (Decidable (_ ∧ _))
  | .sweep _ _ => inferInstanceAs (Decidable (∀ _, _ → _ → _ → (∀ p ∈ _, _) ∧ ∀ _, _ ∧ _))
  | .receive _ _ _ => isTrue trivial
  | .dispatch _ _ => isTrue trivial
  | .accept _ _ => isTrue trivial
  | .lose _ _ _ => isTrue trivial

/-- The interfaces that a frame is sent on. -/
def outs (u : Ustack V) (iface : V) (dest : Option V) : List V :=
  match dest with
  | some p => [p]
  | none => u.ifaceList.filter fun p => decide (p ≠ iface)

theorem forward_eq (u : Ustack V) (iface : V) (f : Frame) (dest : Option V) :
    forward u iface f dest = (outs u iface dest).map fun p => (p, f) := by
  cases dest with
  | some p => rfl
  | none => rfl

theorem nodup_outs (u : Ustack V) (iface : V) (dest : Option V) : (outs u iface dest).Nodup := by
  cases dest with
  | some p => exact List.nodup_singleton p
  | none => exact u.nodup.filter _

end Model

section Links

variable [DecidableEq V] {w : World V} {u v a b : V} {c : Copy}

theorem World.put_map (w : World V) (v : V) (id : ℕ) (ps : List V) (f : Frame) (a b : V) :
    w.put v id (ps.map fun p => (p, f)) a b =
      w.link a b ++ if a = v then List.replicate (ps.count b) ⟨id, f⟩ else [] := by
  by_cases ha : a = v
  · subst ha
    have hfilter : (ps.map fun p => (p, f)).filter (fun m => decide (m.1 = b)) =
        (ps.filter fun p => decide (p = b)).map fun p => (p, f) := by
      simp only [List.filter_map, Function.comp_def]
    simp only [World.put, Function.update_self, if_true, hfilter, List.map_map]
    have hconst : ((fun m : V × Frame => (⟨id, m.2⟩ : Copy)) ∘ fun p => (p, f)) =
        fun _ => ⟨id, f⟩ := rfl
    rw [hconst, List.map_const', List.count_eq_length_filter]
    rfl
  · simp [World.put, ha]

theorem World.take_self (k : ℕ) : w.take u v k u v = (w.link u v).eraseIdx k := by
  simp [World.take]

theorem World.take_of_ne (k : ℕ) (hne : ¬ (a = u ∧ b = v)) : w.take u v k a b = w.link a b := by
  by_cases ha : a = u
  · subst ha
    have hb : b ≠ v := fun hb => hne ⟨rfl, hb⟩
    simp [World.take, hb]
  · simp [World.take, ha]

theorem World.transit_of_none (h : w.pending v = none) : w.transit u v = w.link u v := by
  simp [World.transit, h]

theorem World.transit_of_pending (h : w.pending v = some (u, c)) :
    w.transit u v = c :: w.link u v := by
  simp [World.transit, h]

theorem World.transit_of_other (h : w.pending v = some (u, c)) (ha : a ≠ u) :
    w.transit a v = w.link a v := by
  simp [World.transit, h, Ne.symm ha]

theorem World.link_sublist (w : World V) (u v : V) : (w.link u v).Sublist (w.transit u v) := by
  unfold World.transit
  split
  · split
    · exact List.sublist_cons_self _ _
    · exact .refl _
  · exact .refl _

end Links

section Tables

variable {m : MacPortMap V} {a d : Mac} {u p : V} {now : ℤ}

theorem lookupPort_eq_ifaceOf : (lookupPort m a now).1 = ifaceOf m a :=
  LearningSwitch.lookupPort_fst m a now

@[simp] theorem ifaceOf_lookupPort : ifaceOf (lookupPort m a now).2 d = ifaceOf m d := by
  unfold ifaceOf
  rw [LearningSwitch.view_lookupPort]
  split_ifs
  · simp [Function.comp_def]
  · simp

theorem ifaceOf_insertMacPort : ifaceOf (insertMacPort m a u now) d =
    if a = d then some ((ifaceOf m d).getD u) else ifaceOf m d := by
  unfold ifaceOf
  rw [LearningSwitch.view_insertMacPort]
  split_ifs <;> simp

theorem ifaceOf_of_sweep (h : ifaceOf (sweepAgedMacPortEntry m now) a = some p) :
    ifaceOf m a = some p := by
  unfold ifaceOf at *
  rw [LearningSwitch.view_sweepAgedMacPortEntry] at h
  obtain ⟨q, hq, rfl⟩ := Option.map_eq_some_iff.mp h
  rw [(Option.filter_eq_some_iff.mp hq).1]
  rfl

end Tables

end NetworkLab.SwitchNetwork
