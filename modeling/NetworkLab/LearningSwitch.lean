import NetworkLab.GuardedRuns
import NetworkLab.MacTable

/-!
# Forwarding decisions of the learning switch

`handle_packet` learns the source, looks the destination up and sends the frame.
Each of the two table accesses takes the table lock by itself, so a sweep of
the other thread may come between them; the steps below have this granularity.
What a switch ought to know is a function of the history alone: the interface
on which a station was seen last, as long as its entry has not aged out.
-/
namespace NetworkLab.LearningSwitch
open GuardedRuns

variable {ι : Type*} [DecidableEq ι]

/-- The interfaces of the switch, distinct nodes of one list. -/
structure Ustack (ι : Type*) where
  ifaceList : List ι
  nodup : ifaceList.Nodup

structure Frame where
  etherDhost : Mac
  etherShost : Mac
  body : List UInt8
  deriving DecidableEq

/-- Send the frame on every interface except the one receiving it. -/
def broadcastPacket (u : Ustack ι) (iface : ι) (f : Frame) : List (ι × Frame) :=
  (u.ifaceList.filter (fun pos => decide (pos ≠ iface))).map (fun pos => (pos, f))

/-- Second half of `handle_packet`: the sends that follow the lookup. -/
def forward (u : Ustack ι) (iface : ι) (f : Frame) (dest : Option ι) : List (ι × Frame) :=
  match dest with
  | some dest => [(dest, f)]
  | none => broadcastPacket u iface f

/-- The source function, with the times read by its two table accesses. -/
def handlePacket (u : Ustack ι) (m : MacPortMap ι) (iface : ι) (f : Frame) (now now' : ℤ) :
    List (ι × Frame) × MacPortMap ι :=
  let m := insertMacPort m f.etherShost iface now
  let dest := lookupPort m f.etherDhost now'
  (forward u iface f dest.1, dest.2)

/-- The critical sections of the two threads. -/
inductive Event (ι : Type*)
  | receive (iface : ι) (f : Frame) (now : ℤ)
  | dispatch (iface : ι) (f : Frame) (now : ℤ)
  | sweep (now : ℤ)

/-- Table, frame between its two table accesses, and past events, latest first. -/
structure World (ι : Type*) where
  table : MacPortMap ι
  pending : Option (ι × Frame)
  history : List (Event ι)

def World.initial : World ι := ⟨BucketTable.empty, none, []⟩

/-- One critical section. The packet thread handles one frame at a time. -/
def step (w : World ι) (e : Event ι) : Option (World ι) :=
  match e with
  | .receive iface f now =>
    if w.pending = none then
      some ⟨insertMacPort w.table f.etherShost iface now, some (iface, f), e :: w.history⟩
    else none
  | .dispatch iface f now =>
    if w.pending = some (iface, f) then
      some ⟨(lookupPort w.table f.etherDhost now).2, none, e :: w.history⟩
    else none
  | .sweep now => some ⟨sweepAgedMacPortEntry w.table now, w.pending, e :: w.history⟩

/-- What the dispatch of a frame sends. -/
def sent (u : Ustack ι) (w : World ι) (iface : ι) (f : Frame) (now : ℤ) : List (ι × Frame) :=
  forward u iface f (lookupPort w.table f.etherDhost now).1

/-- Without a sweep in between, the two critical sections are `handle_packet`. -/
theorem receive_dispatch_eq_handlePacket (u : Ustack ι) (w : World ι) (iface : ι) (f : Frame)
    (now now' : ℤ) (hw : w.pending = none) :
    ∃ w₁ w₂, step w (.receive iface f now) = some w₁ ∧
      step w₁ (.dispatch iface f now') = some w₂ ∧
      handlePacket u w.table iface f now now' = (sent u w₁ iface f now', w₂.table) := by
  refine ⟨_, _, by rw [step, if_pos hw], by simp only [step, if_true]; rfl, rfl⟩

/-- Interface of the most recent frame with a given source. -/
def lastSeen : List (Event ι) → Mac → Option ι
  | [], _ => none
  | .receive iface f _ :: h, d => if f.etherShost = d then some iface else lastSeen h d
  | _ :: h, d => lastSeen h d

/-- Where a station is, and when its entry was last used, if it has not aged
out: a frame from the station places it, a frame to it refreshes the time, and
a sweep forgets it after `macPortTimeout` seconds without either. -/
def stations : List (Event ι) → Mac → Option (ι × ℤ)
  | [], _ => none
  | .receive iface f now :: h, d => if f.etherShost = d then some (iface, now) else stations h d
  | .dispatch _ f now :: h, d =>
    if f.etherDhost = d then (stations h d).map (fun p => (p.1, now)) else stations h d
  | .sweep now :: h, d => (stations h d).filter (fun p => !decide (now - p.2 > macPortTimeout))

omit [DecidableEq ι] in
/-- A station that has not aged out is where it was seen last. -/
theorem lastSeen_of_stations {h : List (Event ι)} {d : Mac} {p : ι × ℤ}
    (hp : stations h d = some p) : lastSeen h d = some p.1 := by
  induction h generalizing p with
  | nil => simp [stations] at hp
  | cons e h ih =>
    cases e with
    | receive iface f now =>
      by_cases hd : f.etherShost = d
      · simp only [stations, if_pos hd, Option.some.injEq] at hp
        simp [lastSeen, hd, ← hp]
      · simp only [stations, if_neg hd] at hp
        simpa only [lastSeen, if_neg hd] using ih hp
    | dispatch iface f now =>
      by_cases hd : f.etherDhost = d
      · simp only [stations, if_pos hd, Option.map_eq_some_iff] at hp
        obtain ⟨q, hq, rfl⟩ := hp
        exact (ih hq : lastSeen h d = some q.1)
      · exact ih (by simpa only [stations, if_neg hd] using hp)
    | sweep now => exact ih (Option.filter_eq_some_iff.mp hp).1

/-- The forwarding law: a frame to a station that has not aged out leaves once,
on the interface where the station was seen last, and nowhere when that is the
ingress; any other frame leaves once on every interface except the ingress. -/
def Lawful (u : Ustack ι) (h : List (Event ι)) (iface : ι) (f : Frame)
    (out : List (ι × Frame)) : Prop :=
  match stations h f.etherDhost with
  | some _ => ∃ j, lastSeen h f.etherDhost = some j ∧ out = if j = iface then [] else [(j, f)]
  | none => (∀ k, out.count (k, f) = if k ∈ u.ifaceList ∧ k ≠ iface then 1 else 0) ∧
      ∀ p ∈ out, p.2 = f

/-- The steps on which the switch keeps the law: no frame of a station that has
not aged out arrives on another interface than the last one, and no frame
arrives on the interface of its own destination. -/
def Settled (w : World ι) : Event ι → Prop
  | .receive iface f _ => ∀ p ∈ stations w.history f.etherShost, p.1 = iface
  | .dispatch iface f _ => ∀ p ∈ stations w.history f.etherDhost, p.1 ≠ iface
  | .sweep _ => True

instance (w : World ι) (e : Event ι) : Decidable (Settled w e) :=
  match e with
  | .receive iface f _ =>
    inferInstanceAs (Decidable (∀ p ∈ stations w.history f.etherShost, p.1 = iface))
  | .dispatch iface f _ =>
    inferInstanceAs (Decidable (∀ p ∈ stations w.history f.etherDhost, p.1 ≠ iface))
  | .sweep _ => isTrue trivial

/-- The table agrees with what the history says of every station. -/
def Accurate (w : World ι) : Prop := ∀ d, view w.table d = stations w.history d

theorem accurate_step {w w' : World ι} {e : Event ι} (hw : Accurate w) (hok : Settled w e)
    (h : step w e = some w') : Accurate w' := by
  intro d
  cases e with
  | receive iface f now =>
    simp only [step] at h
    split at h
    · simp only [Option.some.injEq] at h
      subst h
      simp only [view_insertMacPort, stations, hw d]
      by_cases hd : f.etherShost = d
      · subst hd
        -- the entry keeps its old interface, which `Settled` says is the new one
        cases hs : stations w.history f.etherShost with
        | none => simp
        | some p => simp [hok p hs]
      · simp only [if_neg hd]
    · cases h
  | dispatch iface f now =>
    simp only [step] at h
    split at h
    · simp only [Option.some.injEq] at h
      subst h
      simp only [view_lookupPort, stations, hw d]
    · cases h
  | sweep now =>
    simp only [step, Option.some.injEq] at h
    subst h
    simp only [view_sweepAgedMacPortEntry, stations, hw d]

theorem accurate_of_reaches {w : World ι}
    (h : Reaches step Settled (fun w => w = World.initial) w) : Accurate w := by
  refine h.invariant Accurate ?_ (fun _ _ _ => accurate_step)
  rintro _ rfl d
  exact view_empty d

theorem count_broadcastPacket (u : Ustack ι) (iface : ι) (f : Frame) (k : ι) :
    (broadcastPacket u iface f).count (k, f) = if k ∈ u.ifaceList ∧ k ≠ iface then 1 else 0 := by
  have hinj : Function.Injective (fun pos : ι => (pos, f)) := fun a b h => (Prod.mk.inj h).1
  have hcount := List.count_map_of_injective
    (u.ifaceList.filter (fun pos => decide (pos ≠ iface))) _ hinj k
  rw [broadcastPacket, hcount, (u.nodup.filter _).count]
  simp only [List.mem_filter, decide_eq_true_eq]

/-- From an accurate table, the dispatch of a frame keeps the law exactly when
the destination is not on the ingress interface. -/
theorem lawful_iff_settled (u : Ustack ι) {w : World ι} (hw : Accurate w) (iface : ι) (f : Frame)
    (now : ℤ) :
    Lawful u w.history iface f (sent u w iface f now) ↔ Settled w (.dispatch iface f now) := by
  unfold Lawful sent
  rw [lookupPort_fst, hw]
  cases hs : stations w.history f.etherDhost with
  | none =>
    refine iff_of_true ⟨count_broadcastPacket u iface f, fun p hp => ?_⟩ (by simp [Settled, hs])
    simp only [forward, broadcastPacket, Option.map_none, List.mem_map] at hp
    obtain ⟨pos, -, rfl⟩ := hp
    rfl
  | some p =>
    have hseen := lastSeen_of_stations hs
    by_cases hp : p.1 = iface <;> simp [Settled, hs, hseen, forward, hp]

/-- In every run of settled steps a frame is forwarded by the law exactly when
it does not arrive on the interface of its own destination. -/
theorem forwarding_law (u : Ustack ι) {w : World ι}
    (h : Reaches step Settled (fun w => w = World.initial) w) (iface : ι) (f : Frame) (now : ℤ) :
    Lawful u w.history iface f (sent u w iface f now) ↔ Settled w (.dispatch iface f now) :=
  lawful_iff_settled u (accurate_of_reaches h) iface f now

section Instance

/-- Three ports, and the frames that two stations exchange. -/
def ports : Ustack (Fin 3) := ⟨[0, 1, 2], by decide⟩
def hostA : Mac := #v[2, 0, 0, 0, 0, 1]
def hostB : Mac := #v[2, 0, 0, 0, 0, 2]
def toB : Frame := ⟨hostB, hostA, []⟩
def toA : Frame := ⟨hostA, hostB, []⟩

def exchange : List (Event (Fin 3)) :=
  [.receive 0 toB 0, .dispatch 0 toB 0, .sweep 1, .receive 1 toA 1]

theorem forwarding_law_exchange :
    ∃ w : World (Fin 3), Reaches step Settled (fun w => w = World.initial) w ∧
      w.pending = some (1, toA) ∧ Lawful ports w.history 1 toA (sent ports w 1 toA 1) :=
  ⟨_, .exec_get World.initial exchange (by decide), by decide,
    (forwarding_law ports (.exec_get World.initial exchange (by decide)) 1 toA 1).mpr (by decide)⟩

/-- Station A moves from port 0 to port 1; the next frame to it still goes to
port 0. -/
def move : List (Event (Fin 3)) :=
  [.receive 0 toB 0, .dispatch 0 toB 0, .receive 1 toB 1, .dispatch 1 toB 1, .receive 2 toA 2]

theorem forwarding_law_fails_after_move :
    ∃ w : World (Fin 3), Reaches step anyStep (fun w => w = World.initial) w ∧
      w.pending = some (2, toA) ∧ ¬ Lawful ports w.history 2 toA (sent ports w 2 toA 2) := by
  refine ⟨_, .exec_get World.initial move (by decide), by decide, ?_⟩
  have hsent : sent ports ((exec step anyStep World.initial move).get (by decide)) 2 toA 2 =
      [(0, toA)] := by decide
  have hlaw : stations ((exec step anyStep World.initial move).get (by decide)).history hostA =
      some ((1 : Fin 3), (1 : ℤ)) := by decide
  intro h
  unfold Lawful at h
  rw [hsent, show toA.etherDhost = hostA from rfl, hlaw] at h
  obtain ⟨j, hj, hout⟩ := h
  have hj1 : j = 1 := by
    rw [lastSeen_of_stations hlaw] at hj
    exact (Option.some.inj hj).symm
  subst hj1
  exact absurd hout (by decide)

end Instance

end NetworkLab.LearningSwitch
