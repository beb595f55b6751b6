import NetworkLab.GuardedRuns
import NetworkLab.LinkedLists

/-!
# Histories of lists

Lists are initialised, and nodes are added to them and deleted from them. The links show the
sequences that this history gives, forwards from `next` and backwards from `prev`, also to a loop
that deletes nodes as it goes.
-/
namespace NetworkLab.LinkedLists
open GuardedRuns

section Events

variable {N : Type*} [DecidableEq N]

/-- `init_list_head`. -/
def Links.init (m : Links N) (list : N) : Links N where
  next := Function.update m.next list (some list)
  prev := Function.update m.prev list (some list)

/-- The links with their directions exchanged. -/
def Links.flip (m : Links N) : Links N := ⟨m.prev, m.next⟩

/-- The body of a loop that deletes the nodes that are `doomed`. -/
def Links.body (m : Links N) (doomed : N → Bool) (pos : N) : Option (Links N) :=
  if doomed pos then m.delete pos else some m

/-- The loop of `list_for_each_entry_safe` from a node on, with the node that comes next: the
nodes that it visits, and the links after it. -/
def Links.forEachSafeFrom (doomed : N → Bool) (head : N) :
    ℕ → Links N → N → N → Option (List N × Links N)
  | 0, m, pos, _ => if pos = head then some ([], m) else none
  | fuel + 1, m, pos, q =>
    if pos = head then some ([], m)
    else do
      let m ← m.body doomed pos
      let next ← m.next q
      let (visited, m) ← forEachSafeFrom doomed head fuel m q next
      some (pos :: visited, m)

def Links.forEachSafe (m : Links N) (doomed : N → Bool) (fuel : ℕ) (head : N) :
    Option (List N × Links N) := do
  let pos ← m.next head
  let q ← m.next pos
  Links.forEachSafeFrom doomed head fuel m pos q

/-- The links with the sequence of each list that has been initialised. -/
structure ListState (N : Type*) where
  links : Links N
  lists : N → Option (List N)

inductive ListEvent (N : Type*)
  | init (list : N)
  | addHead (new head : N)
  | addTail (new head : N)
  | delete (entry : N)

namespace ListState

/-- A node that has been added to a list is no list of its own any more. -/
def step (s : ListState N) : ListEvent N → Option (ListState N)
  | .init list => some ⟨s.links.init list, Function.update s.lists list (some [])⟩
  | .addHead new head => (s.links.addHead new head).map fun m =>
    ⟨m, Function.update (Function.update s.lists new none) head ((s.lists head).map (new :: ·))⟩
  | .addTail new head => (s.links.addTail new head).map fun m =>
    ⟨m, Function.update (Function.update s.lists new none) head ((s.lists head).map (· ++ [new]))⟩
  | .delete entry => (s.links.delete entry).map fun m =>
    ⟨m, fun h => (s.lists h).map (·.erase entry)⟩

/-- The node is in no list, and is no list with nodes in it. -/
def Unlinked (s : ListState N) (x : N) : Prop :=
  (∀ h l, s.lists h = some l → x ∉ l) ∧ ∀ l, s.lists x = some l → l = []

/-- Nodes are added while they are not linked, and deleted while they are in a list. -/
def Proper (s : ListState N) : ListEvent N → Prop
  | .init list => s.Unlinked list
  | .addHead new head | .addTail new head =>
    s.Unlinked new ∧ new ≠ head ∧ ∃ l, s.lists head = some l
  | .delete entry => ∃ h l, s.lists h = some l ∧ entry ∈ l

/-- The event is about the list. -/
def Concerns (s : ListState N) (h : N) : ListEvent N → Prop
  | .init list => h = list
  | .addHead new head | .addTail new head => h = head ∨ h = new
  | .delete entry => ∃ l, s.lists h = some l ∧ entry ∈ l

/-- No list has been initialised. -/
def Initial (s : ListState N) : Prop := ∀ h, s.lists h = none

end ListState

end Events

section Rings

variable {N : Type*} {m : Links N} {head x : N} {l : List N}

theorem Ring.flip (h : Ring m (head :: l)) : Ring m.flip (head :: l.reverse) := by
  obtain ⟨hhead, hnodup⟩ := List.nodup_cons.mp h.nodup
  refine ⟨List.nodup_cons.mpr ⟨by simpa using hhead, List.nodup_reverse.mpr hnodup⟩, ?_⟩
  have hchain := h.chain
  rw [Cycle.chain_coe_cons] at hchain ⊢
  have hreverse : head :: (l.reverse ++ [head]) = (head :: (l ++ [head])).reverse := by simp
  rw [hreverse, List.isChain_reverse]
  exact hchain.imp fun a b hab => ⟨hab.2, hab.1⟩

/-- The node that comes after one in the list. -/
theorem Ring.next_entry {l₁ l₂ : List N} (h : Ring m (head :: (l₁ ++ x :: l₂))) :
    ∃ next, m.next x = some next ∧ next ∈ (l₂ ++ [head]).head? := by
  have hrot : Ring m (x :: (l₂ ++ head :: l₁)) := Ring.rotate (head :: l₁) (x :: l₂) h
  obtain ⟨next, hnext, hfirst⟩ := hrot.next_mem
  refine ⟨next, hnext, ?_⟩
  cases l₂ with
  | nil => exact hfirst
  | cons y l₂ => exact hfirst

theorem agree_refl (m : Links N) (l : List N) : Agree m m l := fun _ _ => ⟨rfl, rfl⟩

theorem Agree.trans {m₁ m₂ m₃ : Links N} (h : Agree m₁ m₂ l) (h' : Agree m₂ m₃ l) :
    Agree m₁ m₃ l :=
  fun y hy => ⟨(h' y hy).1.trans (h y hy).1, (h' y hy).2.trans (h y hy).2⟩

variable [DecidableEq N]

/-- The body of the loop leaves the node in the list or deletes it. -/
theorem Ring.body (doomed : N → Bool) {l₁ l₂ : List N} (h : Ring m (head :: (l₁ ++ x :: l₂))) :
    ∃ m', m.body doomed x = some m' ∧
      Ring m' (head :: ((l₁ ++ [x].filter (!doomed ·)) ++ l₂)) ∧
      ∀ l' : List N, l'.Disjoint (head :: (l₁ ++ x :: l₂)) → Agree m m' l' := by
  by_cases hx : doomed x
  · obtain ⟨m', hdelete, hring, hagree⟩ := h.deleteEntry
    refine ⟨m', by rw [Links.body, if_pos hx, hdelete], ?_, hagree⟩
    simpa [hx] using hring
  · refine ⟨m, by rw [Links.body, if_neg hx], ?_, fun l' _ => agree_refl m l'⟩
    simpa [hx] using h

/-- The loop visits the nodes that are left, with `kept` the nodes before them that have not been
deleted. The node that comes next is read before the body runs. -/
theorem Ring.forEachSafeFrom (doomed : N → Bool) {kept rest : List N} {pos q : N} {fuel : ℕ}
    (h : Ring m (head :: (kept ++ rest))) (hpos : pos ∈ (rest ++ [head]).head?)
    (hq : ∀ x l, rest = x :: l → q ∈ (l ++ [head]).head?) (hfuel : rest.length ≤ fuel) :
    ∃ m', Links.forEachSafeFrom doomed head fuel m pos q = some (rest, m') ∧
      Ring m' (head :: (kept ++ rest.filter (!doomed ·))) ∧
      ∀ l' : List N, l'.Disjoint (head :: (kept ++ rest)) → Agree m m' l' := by
  induction rest generalizing m kept pos q fuel with
  | nil =>
    obtain rfl : head = pos := by simpa using hpos
    refine ⟨m, ?_, h, fun l' _ => agree_refl m l'⟩
    cases fuel <;> simp [Links.forEachSafeFrom]
  | cons x rest ih =>
    obtain rfl : x = pos := by simpa using hpos
    obtain ⟨fuel, rfl⟩ : ∃ k, fuel = k + 1 := Nat.exists_eq_succ_of_ne_zero (by
      simp only [List.length_cons] at hfuel
      omega)
    have hne : x ≠ head := by
      rintro rfl
      exact (List.nodup_cons.mp h.nodup).1 (List.mem_append_right _ List.mem_cons_self)
    obtain ⟨m₁, hbody, hring, hagree⟩ := h.body doomed
    have hq := hq x rest rfl
    obtain ⟨next, hnext, hnext'⟩ : ∃ next, m₁.next q = some next ∧
        ∀ y l, rest = y :: l → next ∈ (l ++ [head]).head? := by
      cases rest with
      | nil =>
        obtain rfl : head = q := by simpa using hq
        obtain ⟨next, hnext, -⟩ := hring.next_mem
        exact ⟨next, hnext, nofun⟩
      | cons y rest =>
        obtain rfl : y = q := by simpa using hq
        obtain ⟨next, hnext, hfirst⟩ := hring.next_entry
        refine ⟨next, hnext, ?_⟩
        rintro z l hl
        obtain ⟨-, rfl⟩ := List.cons.inj hl
        exact hfirst
    obtain ⟨m₂, hloop, hring', hagree'⟩ :=
      ih hring hq hnext' (Nat.le_of_succ_le_succ hfuel)
    refine ⟨m₂, ?_, ?_, fun l' hl' => (hagree l' hl').trans (hagree' l' ?_)⟩
    · rw [Links.forEachSafeFrom, if_neg hne, hbody]
      simp only [Option.bind_eq_bind, Option.bind_some, hnext, hloop]
    · rw [List.append_assoc, ← List.filter_append] at hring'
      exact hring'
    · refine fun y hy hmem => hl' hy ?_
      simp only [List.mem_cons, List.mem_append, List.mem_filter, List.not_mem_nil,
        or_false] at hmem ⊢
      tauto

theorem Ring.forEachSafe (doomed : N → Bool) (h : Ring m (head :: l)) {fuel : ℕ}
    (hfuel : l.length ≤ fuel) :
    ∃ m', m.forEachSafe doomed fuel head = some (l, m') ∧
      Ring m' (head :: l.filter (!doomed ·)) ∧
      ∀ l' : List N, l'.Disjoint (head :: l) → Agree m m' l' := by
  obtain ⟨pos, hpos, hfirst⟩ := h.next_mem
  obtain ⟨q, hq, hnext⟩ : ∃ q, m.next pos = some q ∧
      ∀ x rest, l = x :: rest → q ∈ (rest ++ [head]).head? := by
    cases l with
    | nil =>
      obtain rfl : head = pos := by simpa using hfirst
      exact ⟨head, hpos, nofun⟩
    | cons x rest =>
      obtain rfl : x = pos := by simpa using hfirst
      have hring : Ring m (head :: ([] ++ x :: rest)) := h
      obtain ⟨q, hq, hafter⟩ := hring.next_entry
      refine ⟨q, hq, ?_⟩
      rintro y l hl
      obtain ⟨-, rfl⟩ := List.cons.inj hl
      exact hafter
  have hring : Ring m (head :: ([] ++ l)) := h
  obtain ⟨m', hloop, hrest⟩ := hring.forEachSafeFrom doomed hfirst hnext hfuel
  refine ⟨m', ?_, hrest⟩
  rw [Links.forEachSafe, hpos, Option.bind_eq_bind, Option.bind_some, hq]
  exact hloop

end Rings

section States

namespace ListState

variable {N : Type*} [DecidableEq N] {s t : ListState N} {m : Links N} {x head : N} {l l' : List N}

omit [DecidableEq N] in
/-- Each list is a ring from its head on, and no node is in two of them. -/
structure Shown (s : ListState N) : Prop where
  ring : ∀ h l, s.lists h = some l → Ring s.links (h :: l)
  disjoint : ∀ h l h' l', s.lists h = some l → s.lists h' = some l' → h ≠ h' →
    (h :: l).Disjoint (h' :: l')

/-- The lists that an event is not about keep their nodes, and the links of these nodes. -/
def Keeps (s : ListState N) (ev : ListEvent N) (t : ListState N) : Prop :=
  ∀ h l, s.lists h = some l → ¬s.Concerns h ev → t.lists h = some l ∧ Agree s.links t.links (h :: l)

namespace Shown

/-- One list is changed and the links of the others stay. -/
theorem update (hs : s.Shown) (hring : Ring m (head :: l))
    (hagree : ∀ h l', h ≠ head → s.lists h = some l' → Agree s.links m (h :: l'))
    (hdisjoint : ∀ h l', h ≠ head → s.lists h = some l' → (h :: l').Disjoint (head :: l)) :
    Shown ⟨m, Function.update s.lists head (some l)⟩ := by
  refine ⟨fun h l' hl' => ?_, fun h l' h' l'' hl' hl'' hne => ?_⟩
  all_goals dsimp only at *
  · by_cases heq : h = head
    · subst heq
      rw [Function.update_self] at hl'
      exact Option.some.inj hl' ▸ hring
    · rw [Function.update_of_ne heq] at hl'
      exact (hs.ring h l' hl').agree (hagree h l' heq hl')
  · by_cases heq : h = head
    · subst heq
      rw [Function.update_self] at hl'
      rw [Function.update_of_ne hne.symm] at hl''
      exact Option.some.inj hl' ▸ (hdisjoint h' l'' hne.symm hl'').symm
    · rw [Function.update_of_ne heq] at hl'
      by_cases heq' : h' = head
      · subst heq'
        rw [Function.update_self] at hl''
        exact Option.some.inj hl'' ▸ hdisjoint h l' heq hl'
      · rw [Function.update_of_ne heq'] at hl''
        exact hs.disjoint h l' h' l'' hl' hl'' hne

theorem forget (hs : s.Shown) (x : N) : Shown ⟨s.links, Function.update s.lists x none⟩ := by
  have hold {h : N} {l : List N} (hl : Function.update s.lists x none h = some l) :
      s.lists h = some l := by
    by_cases heq : h = x
    · subst heq
      rw [Function.update_self] at hl
      cases hl
    · rwa [Function.update_of_ne heq] at hl
  exact ⟨fun h l hl => hs.ring h l (hold hl),
    fun h l h' l' hl hl' => hs.disjoint h l h' l' (hold hl) (hold hl')⟩

omit [DecidableEq N] in
theorem notMem_of_unlinked (hx : s.Unlinked x) {h : N} (hl : s.lists h = some l) (hne : h ≠ x) :
    x ∉ h :: l :=
  List.not_mem_cons_of_ne_of_not_mem hne.symm (hx.1 h l hl)

theorem init (hs : s.Shown) (hx : s.Unlinked x) :
    ∃ t, s.step (.init x) = some t ∧ t.Shown ∧ s.Keeps (.init x) t := by
  have hagree (h : N) (l : List N) (hne : h ≠ x) (hl : s.lists h = some l) :
      Agree s.links (s.links.init x) (h :: l) := by
    intro y hy
    have hyx : y ≠ x := fun heq => notMem_of_unlinked hx hl hne (heq ▸ hy)
    exact ⟨Function.update_of_ne hyx _ _, Function.update_of_ne hyx _ _⟩
  have hring : Ring (s.links.init x) [x] := by
    refine ⟨List.nodup_singleton x, ?_⟩
    rw [Cycle.chain_coe_cons]
    exact .cons_cons ⟨Function.update_self .., Function.update_self ..⟩ (.singleton x)
  refine ⟨_, rfl, hs.update hring hagree fun h l hne hl => ?_, fun h l hl hother =>
    ⟨(Function.update_of_ne hother _ _).trans hl, hagree h l hother hl⟩⟩
  exact List.disjoint_singleton.mpr (notMem_of_unlinked hx hl hne)

/-- A node that is not linked is put into a list, at one of its ends. -/
theorem add (hs : s.Shown) (hx : s.Unlinked x) (hne : x ≠ head) (hl : s.lists head = some l)
    (hmem : ∀ y ∈ l', y = x ∨ y ∈ l) (hring : Ring m (head :: l'))
    (hagree : ∀ l₁ : List N, l₁.Disjoint (x :: head :: l) → Agree s.links m l₁) :
    Shown ⟨m, Function.update (Function.update s.lists x none) head (some l')⟩ ∧
      ∀ h l₁, s.lists h = some l₁ → ¬(h = head ∨ h = x) →
        Function.update (Function.update s.lists x none) head (some l') h = some l₁ ∧
          Agree s.links m (h :: l₁) := by
  have hdisjoint {h : N} {l₁ : List N} (hx' : h ≠ x) (hhead : h ≠ head)
      (hl₁ : s.lists h = some l₁) : (h :: l₁).Disjoint (x :: head :: l) :=
    List.disjoint_cons_right.mpr
      ⟨notMem_of_unlinked hx hl₁ hx', hs.disjoint h l₁ head l hl₁ hl hhead⟩
  constructor
  · refine (hs.forget x).update hring (fun h l₁ hhead hl₁ => ?_) fun h l₁ hhead hl₁ => ?_
    all_goals
      dsimp only at hl₁ ⊢
      have hx' : h ≠ x := by
        rintro rfl
        rw [Function.update_self] at hl₁
        cases hl₁
      rw [Function.update_of_ne hx'] at hl₁
    · exact hagree _ (hdisjoint hx' hhead hl₁)
    · refine fun y hy hmem' => hdisjoint hx' hhead hl₁ hy ?_
      rcases List.mem_cons.mp hmem' with rfl | hy'
      · exact List.mem_cons_of_mem _ List.mem_cons_self
      · rcases hmem y hy' with rfl | hy'
        · exact List.mem_cons_self
        · exact List.mem_cons_of_mem _ (List.mem_cons_of_mem _ hy')
  · intro h l₁ hl₁ hother
    obtain ⟨hhead, hx'⟩ := not_or.mp hother
    rw [Function.update_of_ne hhead, Function.update_of_ne hx']
    exact ⟨hl₁, hagree _ (hdisjoint hx' hhead hl₁)⟩

theorem addHead (hs : s.Shown) (hx : s.Unlinked x) (hne : x ≠ head)
    (hl : s.lists head = some l) :
    ∃ t, s.step (.addHead x head) = some t ∧ t.Shown ∧ s.Keeps (.addHead x head) t := by
  obtain ⟨m, hadd, hring, hagree⟩ :=
    (hs.ring head l hl).addHead (notMem_of_unlinked hx hl hne.symm)
  refine ⟨_, by rw [step, hadd, hl]; rfl, ?_⟩
  exact hs.add hx hne hl (fun y hy => List.mem_cons.mp hy) hring hagree

theorem addTail (hs : s.Shown) (hx : s.Unlinked x) (hne : x ≠ head)
    (hl : s.lists head = some l) :
    ∃ t, s.step (.addTail x head) = some t ∧ t.Shown ∧ s.Keeps (.addTail x head) t := by
  obtain ⟨m, hadd, hring, hagree⟩ :=
    (hs.ring head l hl).addTail (notMem_of_unlinked hx hl hne.symm)
  refine ⟨_, by rw [step, hadd, hl]; rfl, ?_⟩
  refine hs.add hx hne hl (fun y hy => ?_) hring hagree
  exact (List.mem_append.mp hy).elim .inr fun hlast => .inl (List.mem_singleton.mp hlast)

/-- A node is deleted from the list that holds it; the others do not hold it. -/
theorem erase_eq (hs : s.Shown) (hl : s.lists head = some l) (hx : x ∈ l) :
    (fun h => (s.lists h).map (·.erase x)) =
      Function.update s.lists head (some (l.erase x)) := by
  funext h
  by_cases heq : h = head
  · subst heq
    rw [Function.update_self, hl, Option.map_some]
  · rw [Function.update_of_ne heq]
    cases hl' : s.lists h with
    | none => rfl
    | some l' =>
      have hnot : x ∉ l' := fun hx' => hs.disjoint h l' head l hl' hl heq
        (List.mem_cons_of_mem _ hx') (List.mem_cons_of_mem _ hx)
      rw [Option.map_some, List.erase_of_not_mem hnot]

theorem delete (hs : s.Shown) (hl : s.lists head = some l) (hx : x ∈ l) :
    ∃ t, s.step (.delete x) = some t ∧ t.Shown ∧ s.Keeps (.delete x) t := by
  obtain ⟨l₁, l₂, rfl⟩ := List.append_of_mem hx
  have hring := hs.ring head _ hl
  obtain ⟨m, hdelete, hring', hagree⟩ := hring.deleteEntry
  have hothers (h : N) (l : List N) (hne : h ≠ head) (hl' : s.lists h = some l) :
      Agree s.links m (h :: l) := hagree _ (hs.disjoint h l head _ hl' hl hne)
  refine ⟨_, by rw [step, hdelete, Option.map_some], ?_, fun h l hl' hother => ?_⟩
  · rw [hs.erase_eq hl hx, hring.erase_entry]
    refine hs.update hring' hothers fun h l hne hl' y hy hmem => ?_
    apply hs.disjoint h l head _ hl' hl hne hy
    simp only [List.mem_cons, List.mem_append] at hmem ⊢
    tauto
  · have hnot : x ∉ l := fun hmem => hother ⟨l, hl', hmem⟩
    have hne : h ≠ head := by
      rintro rfl
      exact hnot (Option.some.inj (hl'.symm.trans hl) ▸ hx)
    refine ⟨?_, hothers h l hne hl'⟩
    dsimp only
    rw [hl', Option.map_some, List.erase_of_not_mem hnot]

theorem step (hs : s.Shown) {ev : ListEvent N} (hok : s.Proper ev) :
    ∃ t, s.step ev = some t ∧ t.Shown ∧ s.Keeps ev t := by
  cases ev with
  | init list => exact hs.init hok
  | addHead new head =>
    obtain ⟨hnew, hne, l, hl⟩ := hok
    exact hs.addHead hnew hne hl
  | addTail new head =>
    obtain ⟨hnew, hne, l, hl⟩ := hok
    exact hs.addTail hnew hne hl
  | delete entry =>
    obtain ⟨h, l, hl, hentry⟩ := hok
    exact hs.delete hl hentry

end Shown

theorem shown_of_reaches (h : Reaches step Proper Initial s) : s.Shown := by
  refine h.invariant Shown (fun s hs => ⟨fun h l hl => ?_, fun h l h' l' hl => ?_⟩)
    fun s ev t hs hok hstep => ?_
  · rw [hs h] at hl
    cases hl
  · rw [hs h] at hl
    cases hl
  · obtain ⟨t', hstep', hshown, -⟩ := hs.step hok
    exact Option.some.inj (hstep'.symm.trans hstep) ▸ hshown

/-- The links show the sequences in both directions; events that may happen have a result, which
leaves other lists alone; and a loop that deletes nodes visits each node once, in order, and
leaves those that it has not deleted. -/
structure Refines (s : ListState N) : Prop where
  forward : ∀ h l, s.lists h = some l → ∀ fuel, l.length ≤ fuel →
    s.links.traverse fuel h = some l
  backward : ∀ h l, s.lists h = some l → ∀ fuel, l.length ≤ fuel →
    s.links.flip.traverse fuel h = some l.reverse
  step : ∀ ev, s.Proper ev → ∃ t, s.step ev = some t ∧ s.Keeps ev t
  loop : ∀ h l doomed fuel, s.lists h = some l → l.length ≤ fuel → l.Nodup ∧ ∃ m,
    s.links.forEachSafe doomed fuel h = some (l, m) ∧
    m.traverse fuel h = some (l.filter (!doomed ·)) ∧
    ∀ h' l', s.lists h' = some l' → h' ≠ h → Agree s.links m (h' :: l')

theorem Shown.refines (hs : s.Shown) : s.Refines := by
  refine ⟨fun h l hl fuel hfuel => (hs.ring h l hl).traverse hfuel, fun h l hl fuel hfuel => ?_,
    fun ev hok => ?_, fun h l doomed fuel hl hfuel => ?_⟩
  · apply (hs.ring h l hl).flip.traverse
    rwa [List.length_reverse]
  · obtain ⟨t, hstep, -, hkeeps⟩ := hs.step hok
    exact ⟨t, hstep, hkeeps⟩
  · have hring := hs.ring h l hl
    obtain ⟨m, hloop, hring', hagree⟩ := hring.forEachSafe doomed hfuel
    refine ⟨(List.nodup_cons.mp hring.nodup).2, m, hloop, hring'.traverse ?_,
      fun h' l' hl' hne => hagree _ (hs.disjoint h' l' h l hl' hl hne)⟩
    exact (List.length_filter_le _ l).trans hfuel

theorem lists_refine (h : Reaches step Proper Initial s) : s.Refines := (shown_of_reaches h).refines

instance [Fintype N] (s : ListState N) (x : N) : Decidable (s.Unlinked x) :=
  decidable_of_iff ((∀ h, ∀ l ∈ s.lists h, x ∉ l) ∧ ∀ l ∈ s.lists x, l = []) (by
    simp [Unlinked, Option.mem_def])

instance [Fintype N] (s : ListState N) : (ev : ListEvent N) → Decidable (s.Proper ev)
  | .init list => inferInstanceAs (Decidable (s.Unlinked list))
  | .addHead new head | .addTail new head =>
    decidable_of_iff (s.Unlinked new ∧ new ≠ head ∧ (s.lists head).isSome) (by
      simp [Proper, Option.isSome_iff_exists])
  | .delete entry => decidable_of_iff (∃ h, ∃ l ∈ s.lists h, entry ∈ l) (by
    simp [Proper, Option.mem_def])

/-- Two queues and three sockets. -/
inductive QueueNode
  | listenQueue | acceptQueue | first | second | third
  deriving DecidableEq

instance : Fintype QueueNode where
  elems := {.listenQueue, .acceptQueue, .first, .second, .third}
  complete x := by cases x <;> decide

/-- A socket moves from one queue to the end of the other. -/
def queueEvents : List (ListEvent QueueNode) :=
  [.init .listenQueue, .init .acceptQueue, .addTail .first .listenQueue,
    .addHead .second .listenQueue, .addHead .third .acceptQueue, .delete .first,
    .addTail .first .acceptQueue]

def noLists : ListState QueueNode := ⟨⟨fun _ => none, fun _ => none⟩, fun _ => none⟩

theorem lists_refine_queues : ∃ s : ListState QueueNode, s.Refines ∧
    s.lists .listenQueue = some [.second] ∧ s.lists .acceptQueue = some [.third, .first] := by
  have hinitial : noLists.Initial := fun _ => rfl
  have hrun : ∃ s : ListState QueueNode, Reaches step Proper Initial s ∧
      s.lists .listenQueue = some [.second] ∧ s.lists .acceptQueue = some [.third, .first] :=
    exists_of_exec hinitial queueEvents
      (fun s => s.lists .listenQueue = some [.second] ∧
        s.lists .acceptQueue = some [.third, .first]) (by decide +kernel)
  obtain ⟨s, hs, hlists⟩ := hrun
  exact ⟨s, lists_refine hs, hlists⟩

end ListState

end States

end NetworkLab.LinkedLists
