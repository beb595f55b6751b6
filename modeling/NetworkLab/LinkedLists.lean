import Mathlib.Data.List.Cycle
import Mathlib.Logic.Function.Basic
import Mathlib.Logic.Relation

/-!
# Doubly linked lists

Nodes are linked in rings, and a list is a ring with one node for its head. Insertion and
deletion change the links of the neighbours; the links of a deleted node stay as they
are. `none` is the null pointer.
-/
namespace NetworkLab.LinkedLists

variable {N : Type*}

structure Links (N : Type*) where
  next : N → Option N
  prev : N → Option N

section Operations

variable [DecidableEq N] (m : Links N)

/-- Link a node between two others. -/
def Links.insert (new prev next : N) : Links N where
  next := Function.update (Function.update m.next prev (some new)) new (some next)
  prev := Function.update (Function.update m.prev next (some new)) new (some prev)

def Links.addHead (new head : N) : Option (Links N) :=
  (m.next head).map fun next => m.insert new head next

def Links.addTail (new head : N) : Option (Links N) :=
  (m.prev head).map fun prev => m.insert new prev head

/-- Link the neighbours of a node to each other. -/
def Links.delete (x : N) : Option (Links N) :=
  (m.next x).bind fun next => (m.prev x).map fun prev =>
    { next := Function.update m.next prev (some next)
      prev := Function.update m.prev next (some prev) }

/-- A copy of the links of a node in another place. -/
def Links.copy (x y : N) : Links N where
  next := Function.update m.next x (m.next y)
  prev := Function.update m.prev x (m.prev y)

/-- The nodes from `x` on up to the head; `none` where the links lead nowhere or do not
come back within `fuel` nodes. -/
def Links.walk (head : N) : ℕ → N → Option (List N)
  | 0, x => if x = head then some [] else none
  | fuel + 1, x =>
    if x = head then some []
    else (m.next x).bind fun next => (Links.walk head fuel next).map (x :: ·)

/-- The nodes of the list. -/
def Links.traverse (fuel : ℕ) (head : N) : Option (List N) :=
  (m.next head).bind (m.walk head fuel)

end Operations

section Reach

variable (m : Links N)

/-- The links lead from the head to the node. -/
def Holds (head x : N) : Prop :=
  x ≠ head ∧ Relation.ReflTransGen (fun a b => m.next a = some b) head x

variable {m}

theorem holds_of_mem_walk [DecidableEq N] {head x y : N} {fuel : ℕ} {l : List N}
    (hx : Relation.ReflTransGen (fun a b => m.next a = some b) head x)
    (h : m.walk head fuel x = some l) (hy : y ∈ l) : Holds m head y := by
  induction fuel generalizing x l with
  | zero =>
    simp only [Links.walk] at h
    split_ifs at h
    cases h
    cases hy
  | succ fuel ih =>
    simp only [Links.walk] at h
    split_ifs at h with hend
    · cases h
      cases hy
    · obtain ⟨next, hnext, hrest⟩ := Option.bind_eq_some_iff.mp h
      obtain ⟨rest, hwalk, rfl⟩ := Option.map_eq_some_iff.mp hrest
      rcases List.mem_cons.mp hy with rfl | hmem
      · exact ⟨hend, hx⟩
      · exact ih (hx.tail hnext) hwalk hmem

theorem holds_of_mem_traverse [DecidableEq N] {head y : N} {fuel : ℕ} {l : List N}
    (h : m.traverse fuel head = some l) (hy : y ∈ l) : Holds m head y := by
  obtain ⟨next, hnext, hwalk⟩ := Option.bind_eq_some_iff.mp h
  exact holds_of_mem_walk (.single hnext) hwalk hy

end Reach

section Ring

/-- `b` comes after `a`. -/
def Joined (m : Links N) (a b : N) : Prop := m.next a = some b ∧ m.prev b = some a

/-- The nodes are linked in this order, the last to the first. -/
structure Ring (m : Links N) (l : List N) : Prop where
  nodup : l.Nodup
  chain : Cycle.Chain (Joined m) (l : Cycle N)

variable {m m' : Links N}

theorem Ring.rotate (l₁ l₂ : List N) (h : Ring m (l₁ ++ l₂)) : Ring m (l₂ ++ l₁) := by
  have hrot : (l₁ ++ l₂) ~r (l₂ ++ l₁) := List.isRotated_append
  refine ⟨hrot.nodup_iff.mp h.nodup, ?_⟩
  have heq : ((l₁ ++ l₂ : List N) : Cycle N) = (l₂ ++ l₁ : List N) := Cycle.coe_eq_coe.mpr hrot
  exact heq ▸ h.chain

/-- The same links on the nodes of the list. -/
def Agree (m m' : Links N) (l : List N) : Prop :=
  ∀ y ∈ l, m'.next y = m.next y ∧ m'.prev y = m.prev y

theorem Ring.agree {l : List N} (h : Ring m l) (hm : Agree m m' l) : Ring m' l := by
  refine ⟨h.nodup, ?_⟩
  have hchain := h.chain
  cases l with
  | nil => exact Cycle.Chain.nil _
  | cons a l =>
    rw [Cycle.chain_coe_cons] at hchain ⊢
    have hmem {b : N} (hb : b ∈ a :: (l ++ [a])) : b ∈ a :: l := by
      simpa [or_comm, or_assoc] using hb
    refine hchain.imp_of_mem_imp fun b c hb hc hjoined => ?_
    rw [Joined, (hm b (hmem hb)).1, (hm c (hmem hc)).2]
    exact hjoined

theorem Ring.path {l : List N} (h : Ring m l) : l.IsChain (Joined m) := by
  by_cases hnil : l = []
  · rw [hnil]
    exact .nil
  · have hcycle := h.chain
    rw [Cycle.chain_ne_nil _ hnil] at hcycle
    exact hcycle.tail

/-- A path on which only the link after the last node and the one before the first have
changed. -/
theorem path_of_agree {l : List N} (hnodup : l.Nodup) (hchain : l.IsChain (Joined m))
    {first last : N} (hfirst : first ∈ l.head?) (hlast : last ∈ l.getLast?)
    (hnext : ∀ y ∈ l, y ≠ last → m'.next y = m.next y)
    (hprev : ∀ y ∈ l, y ≠ first → m'.prev y = m.prev y) : l.IsChain (Joined m') := by
  rw [List.isChain_iff_forall_rel_of_append_cons_cons] at hchain ⊢
  intro a b l₁ l₂ hl
  obtain ⟨hab, hba⟩ := hchain hl
  rw [hl] at hnodup hfirst hlast
  obtain ⟨-, htail, hdisjoint⟩ := List.nodup_append'.mp hnodup
  have ha : a ≠ last := by
    rintro rfl
    rw [List.getLast?_append_of_ne_nil _ (List.cons_ne_nil _ _), List.getLast?_cons_cons] at hlast
    exact (List.nodup_cons.mp htail).1 (List.mem_of_getLast? hlast)
  have hb : b ≠ first := by
    rintro rfl
    cases l₁ with
    | nil =>
      obtain rfl : a = b := by simpa using hfirst
      exact (List.nodup_cons.mp htail).1 List.mem_cons_self
    | cons c l₁ =>
      obtain rfl : c = b := by simpa using hfirst
      exact hdisjoint List.mem_cons_self (List.mem_cons_of_mem _ List.mem_cons_self)
  have hmemA : a ∈ l := hl ▸ List.mem_append_right _ List.mem_cons_self
  have hmemB : b ∈ l := hl ▸ List.mem_append_right _ (List.mem_cons_of_mem _ List.mem_cons_self)
  exact ⟨(hnext a hmemA ha).trans hab, (hprev b hmemB hb).trans hba⟩

theorem path_congr {l : List N} (hchain : l.IsChain (Joined m)) (hm : Agree m m' l) :
    l.IsChain (Joined m') := by
  apply hchain.imp_of_mem_imp
  intro a b ha hb hab
  simpa [Joined, hm a ha, hm b hb] using hab

/-- A path from the head back to it, the first node of which is linked to the head, is a
ring. -/
theorem ring_of_path {head x : N} {l : List N} (hnodup : (head :: l).Nodup)
    (hpath : (l ++ [head]).IsChain (Joined m)) (hx : x ∈ (l ++ [head]).head?)
    (hjoined : Joined m head x) : Ring m (head :: l) := by
  refine ⟨hnodup, ?_⟩
  rw [Cycle.chain_coe_cons]
  apply hpath.cons
  intro y hy
  rwa [Option.mem_unique hy hx]

theorem Ring.next_mem {a : N} {l : List N} (h : Ring m (a :: l)) :
    ∃ next, m.next a = some next ∧ next ∈ (l ++ [a]).head? := by
  have hcycle := h.chain
  rw [Cycle.chain_coe_cons, List.isChain_cons] at hcycle
  have hne : l ++ [a] ≠ [] := List.append_ne_nil_of_right_ne_nil _ (List.cons_ne_nil _ _)
  have hfirst := (List.head_eq_iff_head?_eq_some hne).mp rfl
  exact ⟨_, (hcycle.1 _ hfirst).1, hfirst⟩

theorem Ring.prev_mem {a : N} {l : List N} (h : Ring m (a :: l)) :
    ∃ prev, m.prev a = some prev ∧ prev ∈ (a :: l).getLast? := by
  have hcycle := h.chain
  rw [Cycle.chain_ne_nil _ (List.cons_ne_nil _ _), List.isChain_cons_cons] at hcycle
  exact ⟨_, hcycle.1.2, List.getLast?_eq_getLast_of_ne_nil _⟩

/-- The links of the nodes of a ring are not null. -/
theorem Ring.next_ne_none {l : List N} (h : Ring m l) {x : N} (hx : x ∈ l) : m.next x ≠ none := by
  obtain ⟨l₁, l₂, rfl⟩ := List.append_of_mem hx
  have hrot : Ring m (x :: (l₂ ++ l₁)) := Ring.rotate l₁ (x :: l₂) h
  obtain ⟨next, hnext, -⟩ := hrot.next_mem
  rw [hnext]
  exact Option.some_ne_none next

/-- A list holds the nodes of its ring. -/
theorem Ring.holds_iff {head : N} {l : List N} (h : Ring m (head :: l)) (x : N) :
    Holds m head x ↔ x ∈ l := by
  constructor
  · rintro ⟨hne, hreach⟩
    have hmem : x ∈ head :: l := by
      clear hne
      induction hreach with
      | refl => exact List.mem_cons_self
      | @tail b c _ hbc ih =>
        obtain ⟨l₁, l₂, hl⟩ := List.append_of_mem ih
        rw [hl] at h
        have hrot : Ring m (b :: (l₂ ++ l₁)) := Ring.rotate _ _ h
        obtain ⟨next, hnext, hfirst⟩ := hrot.next_mem
        obtain rfl : c = next := Option.some.inj (hbc.symm.trans hnext)
        have hc := List.mem_of_mem_head? hfirst
        rw [hl]
        simp only [List.mem_append, List.mem_cons, List.not_mem_nil, or_false] at hc ⊢
        rcases hc with (h₂ | h₁) | rfl
        · exact .inr (.inr h₂)
        · exact .inl h₁
        · exact .inr (.inl rfl)
    exact (List.mem_cons.mp hmem).resolve_left hne
  · intro hx
    refine ⟨fun heq => (List.nodup_cons.mp h.nodup).1 (heq ▸ hx), ?_⟩
    have hpath : (head :: l).IsChain (Relation.ReflTransGen fun a b => m.next a = some b) :=
      h.path.imp fun a b hab => .single hab.1
    exact hpath.rel_cons hx

variable [DecidableEq N]

theorem insert_agree {l : List N} {new prev next : N} (hfirst : next ∈ l) (hlast : prev ∈ l)
    {l' : List N} (h : l'.Disjoint (new :: l)) : Agree m (m.insert new prev next) l' := by
  intro y hy
  have hne (z : N) (hz : z ∈ new :: l) : y ≠ z := fun heq => h hy (heq ▸ hz)
  simp only [Links.insert]
  rw [Function.update_of_ne (hne new List.mem_cons_self),
    Function.update_of_ne (hne prev (List.mem_cons_of_mem _ hlast)),
    Function.update_of_ne (hne new List.mem_cons_self),
    Function.update_of_ne (hne next (List.mem_cons_of_mem _ hfirst))]
  exact ⟨rfl, rfl⟩

/-- A node linked between two neighbours of a path. -/
theorem path_insert {l₁ l₂ : List N} {new prev next : N} (hnodup : (l₁ ++ l₂).Nodup)
    (hpath : (l₁ ++ l₂).IsChain (Joined m)) (hnew : new ∉ l₁ ++ l₂)
    (hlast : prev ∈ l₁.getLast?) (hfirst : next ∈ l₂.head?) :
    (l₁ ++ new :: l₂).IsChain (Joined (m.insert new prev next)) := by
  have hprev := List.mem_of_getLast? hlast
  have hnext := List.mem_of_mem_head? hfirst
  obtain ⟨hnodup₁, hnodup₂, hdisjoint⟩ := List.nodup_append'.mp hnodup
  obtain ⟨hpath₁, hpath₂, -⟩ := List.isChain_append.mp hpath
  have hne₁ : ∀ y ∈ l₁, y ≠ new := fun y hy heq => hnew (heq ▸ List.mem_append_left _ hy)
  have hne₂ : ∀ y ∈ l₂, y ≠ new := fun y hy heq => hnew (heq ▸ List.mem_append_right _ hy)
  have hprev₂ : ∀ y ∈ l₂, y ≠ prev := fun y hy heq => hdisjoint (heq ▸ hprev) hy
  have hnext₁ : ∀ y ∈ l₁, y ≠ next := fun y hy heq => hdisjoint hy (heq ▸ hnext)
  have hfirst₁ := List.head?_eq_some_head (List.ne_nil_of_mem hprev)
  have hlast₂ := List.getLast?_eq_some_getLast (List.ne_nil_of_mem hnext)
  -- before the new node only the link forwards from `prev` changes, after it only the
  -- link backwards from `next`
  have hbefore : l₁.IsChain (Joined (m.insert new prev next)) := by
    apply path_of_agree hnodup₁ hpath₁ hfirst₁ hlast
    · intro y hy hne
      simp [Links.insert, hne, hne₁ y hy]
    · intro y hy _
      simp [Links.insert, hne₁ y hy, hnext₁ y hy]
  have hafter : l₂.IsChain (Joined (m.insert new prev next)) := by
    apply path_of_agree hnodup₂ hpath₂ hfirst hlast₂
    · intro y hy _
      simp [Links.insert, hne₂ y hy, hprev₂ y hy]
    · intro y hy hne
      simp [Links.insert, hne, hne₂ y hy]
  apply hbefore.append (hafter.cons _)
  · intro a ha b hb
    obtain rfl : a = prev := Option.mem_unique ha hlast
    obtain rfl : new = b := by simpa using hb
    simp [Joined, Links.insert, hne₁ a hprev]
  · intro b hb
    obtain rfl : b = next := Option.mem_unique hb hfirst
    simp [Joined, Links.insert, hne₂ b hnext]

/-- A path from the head back to it is what a traversal visits. -/
theorem walk_path {head x : N} {l : List N} {fuel : ℕ} (hl : head ∉ l)
    (hpath : (l ++ [head]).IsChain (Joined m)) (hx : x ∈ (l ++ [head]).head?)
    (hfuel : l.length ≤ fuel) : m.walk head fuel x = some l := by
  induction l generalizing fuel x with
  | nil =>
    obtain rfl : head = x := by simpa using hx
    cases fuel <;> simp [Links.walk]
  | cons a l ih =>
    obtain rfl : a = x := by simpa using hx
    obtain ⟨fuel, rfl⟩ : ∃ k, fuel = k + 1 := Nat.exists_eq_succ_of_ne_zero (by
      simp only [List.length_cons] at hfuel
      omega)
    obtain ⟨hne, hl⟩ : head ≠ a ∧ head ∉ l := by simpa using hl
    have hnext := List.head?_eq_some_head (List.append_ne_nil_of_right_ne_nil l
      (List.cons_ne_nil head []))
    obtain ⟨hjoined, hrest⟩ := List.isChain_cons.mp hpath
    have hwalk := ih hl hrest hnext (Nat.le_of_succ_le_succ hfuel)
    simp [Links.walk, Ne.symm hne, (hjoined _ hnext).1, hwalk]

/-- A node linked between the last and the first of a ring. -/
theorem Ring.insert {l : List N} (h : Ring m l) {new prev next : N} (hnew : new ∉ l)
    (hfirst : next ∈ l.head?) (hlast : prev ∈ l.getLast?) :
    Ring (m.insert new prev next) (new :: l) := by
  have hmem (y : N) (hy : y ∈ l) : y ≠ new := fun heq => hnew (heq ▸ hy)
  have hprev := hmem prev (List.mem_of_getLast? hlast)
  have hnext := hmem next (List.mem_of_mem_head? hfirst)
  refine ⟨List.nodup_cons.mpr ⟨hnew, h.nodup⟩, ?_⟩
  have hpath : l.IsChain (Joined (m.insert new prev next)) := by
    refine path_of_agree h.nodup h.path hfirst hlast (fun y hy hne => ?_) fun y hy hne => ?_
    · simp only [Links.insert]
      rw [Function.update_of_ne (hmem y hy), Function.update_of_ne hne]
    · simp only [Links.insert]
      rw [Function.update_of_ne (hmem y hy), Function.update_of_ne hne]
  rw [Cycle.chain_coe_cons]
  refine (hpath.append (.singleton new) fun a ha b hb => ?_).cons fun b hb => ?_
  · obtain rfl : a = prev := Option.mem_unique ha hlast
    obtain rfl : new = b := by simpa using hb
    simp only [Joined, Links.insert]
    rw [Function.update_of_ne hprev, Function.update_self, Function.update_self]
    exact ⟨rfl, rfl⟩
  · have hb' : b ∈ l.head? := by
      cases l with
      | nil => cases hfirst
      | cons a l => exact hb
    obtain rfl : b = next := Option.mem_unique hb' hfirst
    simp only [Joined, Links.insert]
    rw [Function.update_self, Function.update_of_ne hnext, Function.update_self]
    exact ⟨rfl, rfl⟩

/-- A node is deleted that is not alone in its ring. -/
theorem Ring.delete {x : N} {l : List N} (h : Ring m (x :: l)) (hne : l ≠ []) :
    ∃ m', m.delete x = some m' ∧ Ring m' l ∧
      ∀ l' : List N, l'.Disjoint (x :: l) → Agree m m' l' := by
  obtain ⟨hx, hnodup⟩ := List.nodup_cons.mp h.nodup
  obtain ⟨first, hfirst⟩ : ∃ first, first ∈ l.head? :=
    ⟨l.head hne, (List.head_eq_iff_head?_eq_some hne).mp rfl⟩
  have hlast : l.getLast hne ∈ l.getLast? := List.getLast?_eq_getLast_of_ne_nil hne
  have hcycle := h.chain
  rw [Cycle.chain_coe_cons, List.isChain_cons, List.isChain_append] at hcycle
  obtain ⟨hafter, hchain, -, hbefore⟩ := hcycle
  obtain ⟨hnext, -⟩ := hafter first (by rw [List.head?_append_of_ne_nil _ hne]; exact hfirst)
  obtain ⟨-, hprev⟩ := hbefore _ hlast x rfl
  have hmemFirst := List.mem_of_mem_head? hfirst
  have hmemLast := List.getLast_mem hne
  refine ⟨⟨Function.update m.next (l.getLast hne) (some first),
    Function.update m.prev first (some (l.getLast hne))⟩, ?_, ⟨hnodup, ?_⟩, fun l' hl' y hy => ?_⟩
  · simp only [Links.delete, hnext, hprev, Option.bind_some, Option.map_some]
  · rw [Cycle.chain_ne_nil _ hne]
    refine List.IsChain.cons (path_of_agree hnodup hchain hfirst hlast (fun y _ hy => ?_)
      fun y _ hy => ?_) fun b hb => ?_
    · exact Function.update_of_ne hy ..
    · exact Function.update_of_ne hy ..
    · obtain rfl : b = first := Option.mem_unique hb hfirst
      exact ⟨Function.update_self .., Function.update_self ..⟩
  · have hother (z : N) (hz : z ∈ l) : y ≠ z := fun heq => hl' hy (heq ▸ List.mem_cons_of_mem _ hz)
    exact ⟨Function.update_of_ne (hother _ hmemLast) ..,
      Function.update_of_ne (hother _ hmemFirst) ..⟩

/-- A new node comes after the head. -/
theorem Ring.addHead {head x : N} {l : List N} (h : Ring m (head :: l)) (hx : x ∉ head :: l) :
    ∃ m', m.addHead x head = some m' ∧ Ring m' (head :: x :: l) ∧
      ∀ l' : List N, l'.Disjoint (x :: head :: l) → Agree m m' l' := by
  obtain ⟨next, hnext, hfirst⟩ := h.next_mem
  have hrot : Ring m (l ++ [head]) := Ring.rotate [head] l h
  have hlast : head ∈ (l ++ [head]).getLast? := List.getLast?_concat ..
  have hnew : x ∉ l ++ [head] := by simpa [or_comm] using hx
  refine ⟨m.insert x head next, by rw [Links.addHead, hnext, Option.map_some], ?_, ?_⟩
  · exact Ring.rotate (x :: l) [head] (hrot.insert hnew hfirst hlast)
  · refine fun l' hl' => insert_agree (List.mem_of_mem_head? hfirst) (List.mem_of_getLast? hlast) ?_
    exact fun y hy hmem => hl' hy (by simpa [or_comm] using hmem)

/-- A new node comes before the head. -/
theorem Ring.addTail {head x : N} {l : List N} (h : Ring m (head :: l)) (hx : x ∉ head :: l) :
    ∃ m', m.addTail x head = some m' ∧ Ring m' (head :: (l ++ [x])) ∧
      ∀ l' : List N, l'.Disjoint (x :: head :: l) → Agree m m' l' := by
  obtain ⟨prev, hprev, hlast⟩ := h.prev_mem
  refine ⟨m.insert x prev head, by rw [Links.addTail, hprev, Option.map_some], ?_, ?_⟩
  · exact Ring.rotate [x] (head :: l) (h.insert hx rfl hlast)
  · exact fun l' hl' => insert_agree List.mem_cons_self (List.mem_of_getLast? hlast) hl'

theorem Ring.erase_entry {head x : N} {l₁ l₂ : List N} (h : Ring m (head :: (l₁ ++ x :: l₂))) :
    (l₁ ++ x :: l₂).erase x = l₁ ++ l₂ := by
  have hnodup := (List.nodup_cons.mp h.nodup).2
  have hnot : x ∉ l₁ := fun hmem => (List.nodup_append'.mp hnodup).2.2 hmem List.mem_cons_self
  rw [List.erase_append_right _ hnot, List.erase_cons_head]

/-- A node is deleted that is not the head. -/
theorem Ring.deleteEntry {head x : N} {l₁ l₂ : List N} (h : Ring m (head :: (l₁ ++ x :: l₂))) :
    ∃ m', m.delete x = some m' ∧ Ring m' (head :: (l₁ ++ l₂)) ∧
      ∀ l' : List N, l'.Disjoint (head :: (l₁ ++ x :: l₂)) → Agree m m' l' := by
  have hrot : Ring m (x :: (l₂ ++ head :: l₁)) := Ring.rotate (head :: l₁) (x :: l₂) h
  obtain ⟨m', hdelete, hring, hagree⟩ :=
    hrot.delete (List.append_ne_nil_of_right_ne_nil _ (List.cons_ne_nil _ _))
  refine ⟨m', hdelete, Ring.rotate l₂ (head :: l₁) hring, fun l' hl' => hagree l' ?_⟩
  intro y hy hmem
  refine hl' hy ?_
  simp only [List.mem_cons, List.mem_append] at hmem ⊢
  tauto

/-- A traversal visits the nodes of the ring after the head. -/
theorem Ring.traverse (h : Ring m (head :: l)) {fuel : ℕ} (hfuel : l.length ≤ fuel) :
    m.traverse fuel head = some l := by
  obtain ⟨next, hnext, hfirst⟩ := h.next_mem
  have hcycle := h.chain
  rw [Cycle.chain_coe_cons] at hcycle
  rw [Links.traverse, hnext, Option.bind_some]
  exact walk_path (List.nodup_cons.mp h.nodup).1 hcycle.tail hfirst hfuel

end Ring

section Lists

variable {H : Type*} [DecidableEq H] {m : Links N} {head : H → N} {L : H → List N}

/-- `L` says what is in the list at each head, and no node is in two of them. -/
structure Lists (m : Links N) (head : H → N) (L : H → List N) : Prop where
  ring : ∀ h, Ring m (head h :: L h)
  disjoint : ∀ h h', h ≠ h' → (head h :: L h).Disjoint (head h' :: L h')

/-- The node is in one of the lists. -/
def Listed (L : H → List N) (x : N) : Prop := ∃ h, x ∈ L h

/-- The links lead to the node from one of the heads. -/
def Linked (m : Links N) (head : H → N) (x : N) : Prop := ∃ h, Holds m (head h) x

/-- One list is changed and the links of the others stay. -/
theorem Lists.update (hL : Lists m head L) (h : H) {m' : Links N} {l : List N}
    (hring : Ring m' (head h :: l)) (hagree : ∀ h', h' ≠ h → Agree m m' (head h' :: L h'))
    (hdisjoint : ∀ h', h' ≠ h → (head h' :: L h').Disjoint l) :
    Lists m' head (Function.update L h l) := by
  refine ⟨fun h' => ?_, fun h₁ h₂ hne => ?_⟩
  · by_cases heq : h' = h
    · subst heq
      rw [Function.update_self]
      exact hring
    · rw [Function.update_of_ne heq]
      exact (hL.ring h').agree (hagree h' heq)
  · have hone (h' : H) (hne' : h' ≠ h) : (head h' :: L h').Disjoint (head h :: l) :=
      List.disjoint_cons_right.mpr
        ⟨(List.disjoint_cons_right.mp (hL.disjoint h' h hne')).1, hdisjoint h' hne'⟩
    by_cases heq₁ : h₁ = h
    · subst heq₁
      rw [Function.update_self, Function.update_of_ne hne.symm]
      exact (hone h₂ hne.symm).symm
    · rw [Function.update_of_ne heq₁]
      by_cases heq₂ : h₂ = h
      · subst heq₂
        rw [Function.update_self]
        exact hone h₁ heq₁
      · rw [Function.update_of_ne heq₂]
        exact hL.disjoint h₁ h₂ hne

variable [DecidableEq N] {x : N}

theorem Lists.addHead (hL : Lists m head L) (h : H) (hx : ∀ h', x ∉ head h' :: L h') :
    ∃ m', m.addHead x (head h) = some m' ∧
      Lists m' head (Function.update L h (x :: L h)) := by
  obtain ⟨m', hadd, hring, hagree⟩ := (hL.ring h).addHead (hx h)
  refine ⟨m', hadd, hL.update h hring (fun h' hne => ?_) fun h' hne => ?_⟩
  · exact hagree _ (List.disjoint_cons_right.mpr ⟨hx h', hL.disjoint h' h hne⟩)
  · exact List.disjoint_cons_right.mpr
      ⟨hx h', (List.disjoint_cons_right.mp (hL.disjoint h' h hne)).2⟩

theorem Lists.addTail (hL : Lists m head L) (h : H) (hx : ∀ h', x ∉ head h' :: L h') :
    ∃ m', m.addTail x (head h) = some m' ∧
      Lists m' head (Function.update L h (L h ++ [x])) := by
  obtain ⟨m', hadd, hring, hagree⟩ := (hL.ring h).addTail (hx h)
  refine ⟨m', hadd, hL.update h hring (fun h' hne => ?_) fun h' hne => ?_⟩
  · exact hagree _ (List.disjoint_cons_right.mpr ⟨hx h', hL.disjoint h' h hne⟩)
  · exact List.disjoint_append_right.mpr
      ⟨(List.disjoint_cons_right.mp (hL.disjoint h' h hne)).2, List.disjoint_singleton.mpr (hx h')⟩

theorem Lists.delete (hL : Lists m head L) {h : H} (hx : x ∈ L h) :
    ∃ m', m.delete x = some m' ∧ Lists m' head (Function.update L h ((L h).erase x)) := by
  obtain ⟨l₁, l₂, hl⟩ := List.append_of_mem hx
  have hring := hL.ring h
  rw [hl] at hring
  obtain ⟨m', hdelete, hring', hagree⟩ := hring.deleteEntry
  have herase : (L h).erase x = l₁ ++ l₂ := by
    rw [hl, hring.erase_entry]
  refine ⟨m', hdelete, hL.update h (herase ▸ hring') (fun h' hne => ?_) fun h' hne => ?_⟩
  · exact hagree _ (hl ▸ hL.disjoint h' h hne)
  · exact fun y hy hmem =>
      (List.disjoint_cons_right.mp (hL.disjoint h' h hne)).2 hy (List.mem_of_mem_erase hmem)

omit [DecidableEq H] [DecidableEq N] in
theorem Lists.linked_iff (hL : Lists m head L) : Linked m head x ↔ Listed L x :=
  exists_congr fun h => (hL.ring h).holds_iff x

omit [DecidableEq H] [DecidableEq N] in
/-- The links of a node in a list are not null. -/
theorem Lists.next_ne_none (hL : Lists m head L) (hx : Listed L x) : m.next x ≠ none := by
  obtain ⟨h, hmem⟩ := hx
  exact (hL.ring h).next_ne_none (List.mem_cons_of_mem _ hmem)

omit [DecidableEq H] in
theorem Lists.addHead_defined (hL : Lists m head L) (h : H) (x : N) :
    ∃ m', m.addHead x (head h) = some m' := by
  obtain ⟨next, hnext⟩ := Option.ne_none_iff_exists'.mp
    ((hL.ring h).next_ne_none List.mem_cons_self)
  exact ⟨_, by rw [Links.addHead, hnext, Option.map_some]⟩

omit [DecidableEq H] in
/-- A null link stays null when another node is put into a list. -/
theorem Lists.null_addHead (hL : Lists m head L) {h : H} {y : N} (hy : m.next y = none)
    (hne : y ≠ x) {m' : Links N} (hm : m.addHead x (head h) = some m') : m'.next y = none := by
  obtain ⟨next, -, rfl⟩ := Option.map_eq_some_iff.mp hm
  have hhead : y ≠ head h := by
    rintro rfl
    exact (hL.ring h).next_ne_none List.mem_cons_self hy
  simp only [Links.insert]
  rw [Function.update_of_ne hne, Function.update_of_ne hhead, hy]

omit [DecidableEq H] in
theorem Lists.null_addTail (hL : Lists m head L) {h : H} {y : N} (hy : m.next y = none)
    (hne : y ≠ x) {m' : Links N} (hm : m.addTail x (head h) = some m') : m'.next y = none := by
  obtain ⟨prev, hprev, rfl⟩ := Option.map_eq_some_iff.mp hm
  obtain ⟨prev', hprev', hlast⟩ := (hL.ring h).prev_mem
  obtain rfl := Option.some.inj (hprev.symm.trans hprev')
  have hother : y ≠ prev := by
    rintro rfl
    exact (hL.ring h).next_ne_none (List.mem_of_getLast? hlast) hy
  simp only [Links.insert]
  rw [Function.update_of_ne hne, Function.update_of_ne hother, hy]

omit [DecidableEq H] in
/-- A null link stays null when a node is deleted from a list. -/
theorem Lists.null_delete (hL : Lists m head L) {y : N} (hy : m.next y = none) {h : H}
    (hx : x ∈ L h) {m' : Links N} (hm : m.delete x = some m') : m'.next y = none := by
  obtain ⟨next, -, hrest⟩ := Option.bind_eq_some_iff.mp hm
  obtain ⟨prev, hprev, rfl⟩ := Option.map_eq_some_iff.mp hrest
  obtain ⟨l₁, l₂, hl⟩ := List.append_of_mem hx
  have hring := hL.ring h
  rw [hl, ← List.cons_append] at hring
  have hrot : Ring m (x :: (l₂ ++ head h :: l₁)) := Ring.rotate (head h :: l₁) (x :: l₂) hring
  obtain ⟨prev', hprev', hlast⟩ := hrot.prev_mem
  obtain rfl := Option.some.inj (hprev.symm.trans hprev')
  have hother : y ≠ prev := by
    rintro rfl
    exact hrot.next_ne_none (List.mem_of_getLast? hlast) hy
  exact (Function.update_of_ne hother _ _).trans hy

omit [DecidableEq H] [DecidableEq N] in
/-- The node after one in a list is another one. -/
theorem Lists.next_ne_self (hL : Lists m head L) (hx : Listed L x) : m.next x ≠ some x := by
  obtain ⟨h, hmem⟩ := hx
  obtain ⟨l₁, l₂, hl⟩ := List.append_of_mem hmem
  have hring := hL.ring h
  rw [hl, ← List.cons_append] at hring
  have hrot : Ring m (x :: (l₂ ++ head h :: l₁)) := Ring.rotate (head h :: l₁) (x :: l₂) hring
  obtain ⟨next, hnext, hfirst⟩ := hrot.next_mem
  rw [hnext, ne_eq, Option.some_inj]
  rintro rfl
  rw [List.head?_append_of_ne_nil _ (List.append_ne_nil_of_right_ne_nil _
    (List.cons_ne_nil _ _))] at hfirst
  exact (List.nodup_cons.mp hrot.nodup).1 (List.mem_of_mem_head? hfirst)

omit [DecidableEq H] in
/-- A traversal visits the nodes of the list. -/
theorem Lists.traverse (hL : Lists m head L) (h : H) {fuel : ℕ} (hfuel : (L h).length ≤ fuel) :
    m.traverse fuel (head h) = some (L h) := (hL.ring h).traverse hfuel

omit [DecidableEq N] in
theorem listed_update_iff {h : H} {l : List N} {y : N} : Listed (Function.update L h l) y ↔
    y ∈ l ∨ ∃ h', h' ≠ h ∧ y ∈ L h' := by
  constructor
  · rintro ⟨h', hy⟩
    by_cases heq : h' = h
    · subst heq
      rw [Function.update_self] at hy
      exact .inl hy
    · rw [Function.update_of_ne heq] at hy
      exact .inr ⟨h', heq, hy⟩
  · rintro (hy | ⟨h', hne, hy⟩)
    · exact ⟨h, by rwa [Function.update_self]⟩
    · exact ⟨h', by rwa [Function.update_of_ne hne]⟩

omit [DecidableEq N] in
/-- One node more in a list. -/
theorem listed_update_of_mem_iff {h : H} {l : List N} (hl : ∀ y, y ∈ l ↔ y = x ∨ y ∈ L h) (y : N) :
    Listed (Function.update L h l) y ↔ y = x ∨ Listed L y := by
  rw [listed_update_iff, hl]
  constructor
  · rintro ((rfl | hy) | ⟨h', -, hy⟩)
    · exact .inl rfl
    · exact .inr ⟨h, hy⟩
    · exact .inr ⟨h', hy⟩
  · rintro (rfl | ⟨h', hy⟩)
    · exact .inl (.inl rfl)
    · by_cases heq : h' = h
      · exact .inl (.inr (heq ▸ hy))
      · exact .inr ⟨h', heq, hy⟩

theorem Lists.listed_erase_iff (hL : Lists m head L) {h : H} (hx : x ∈ L h) (y : N) :
    Listed (Function.update L h ((L h).erase x)) y ↔ y ≠ x ∧ Listed L y := by
  have hnodup := (List.nodup_cons.mp (hL.ring h).nodup).2
  rw [listed_update_iff, hnodup.mem_erase_iff]
  constructor
  · rintro (⟨hne, hy⟩ | ⟨h', hne, hy⟩)
    · exact ⟨hne, h, hy⟩
    · refine ⟨?_, h', hy⟩
      rintro rfl
      exact hL.disjoint h' h hne (List.mem_cons_of_mem _ hy) (List.mem_cons_of_mem _ hx)
  · rintro ⟨hne, h', hy⟩
    by_cases heq : h' = h
    · exact .inl ⟨hne, heq ▸ hy⟩
    · exact .inr ⟨h', heq, hy⟩

end Lists

end NetworkLab.LinkedLists
