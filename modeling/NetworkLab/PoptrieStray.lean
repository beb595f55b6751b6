import NetworkLab.PoptrieRuns
import NetworkLab.PoptrieShape

/-!
# Insertions that read stray leaves

Once a node is a leaf short, an insertion reads behind the end of its array, and nothing says
which leaf it finds there. The leaves have no part in where nodes are and in which slots have
one, so that all runs, whatever such reads give, keep the shape of the trie.
-/
namespace NetworkLab.Tries
open RunCoding

section Leaves

variable {s t : Poptrie} {nd : Internal} {f : (ℕ → ℕ) → ℕ × Leaf}

/-- The node with as many leaves as it has bits, all of them the default. -/
def Internal.defaultLeaves (nd : Internal) : Internal :=
  { nd with leaf := List.replicate (countOneBit nd.leafvec) ⟨0, 0⟩ }

def Poptrie.defaultLeaves (s : Poptrie) : Poptrie :=
  { s with arrays := s.arrays.map (Option.map (List.map Internal.defaultLeaves)) }

theorem children_defaultLeaves (s : Poptrie) (b : ℕ) :
    s.defaultLeaves.children (some b) =
      (s.children (some b)).map (List.map Internal.defaultLeaves) := by
  rw [Poptrie.children, Poptrie.children, Poptrie.defaultLeaves, List.getElem?_map]
  cases s.arrays[b]? with
  | none => rfl
  | some array => rfl

theorem same_defaultLeaves (s : Poptrie) : s.Same Internal.bits s.defaultLeaves := by
  refine ⟨rfl, List.length_map _ |>.symm, fun b => ?_⟩
  rw [children_defaultLeaves, Option.map_map, List.map_comp_map]
  rfl

theorem node_defaultLeaves (s : Poptrie) (q : NodePtr) :
    s.defaultLeaves.node q = (s.node q).map Internal.defaultLeaves := by
  rw [node_eq, node_eq, children_defaultLeaves]
  cases s.children (some q.1) with
  | none => rfl
  | some nodes => exact List.getElem?_map

/-- Where all slots have one content, the last one has it. -/
theorem lastItem_of_const {α : Type} {slots : ℕ → Option α} {x : α} {n j : ℕ} (hj : j < n)
    (hfilled : slots j ≠ none) (hconst : ∀ i < n, ∀ y, slots i = some y → y = x) :
    lastItem slots n = some x := by
  induction n with
  | zero => exact absurd hj (Nat.not_lt_zero j)
  | succ n ih =>
    cases hn : slots n with
    | some y => rw [lastItem_succ_of_some hn, hconst n (Nat.lt_succ_self n) y hn]
    | none =>
      rw [lastItem_succ_of_none hn]
      refine ih ?_ fun i hi => hconst i (Nat.lt_succ_of_lt hi)
      rcases Nat.lt_succ_iff_lt_or_eq.mp hj with hlt | rfl
      · exact hlt
      · exact absurd hn hfilled

/-- A shaped node stands for slots when its leaves are given. -/
theorem Internal.Shaped.shows (h : nd.Shaped) {slots : ℕ → Option Leaf}
    (hvector : ∀ i < 64, nd.vector.getLsbD i = (slots i).isNone)
    (hconst : ∀ i x, slots i = some x → x = ⟨0, 0⟩) : nd.defaultLeaves.Shows slots := by
  have hmark {i : ℕ} (hi : i < 64) (hbit : nd.leafvec.getLsbD i = true) :
      slots i = some ⟨0, 0⟩ := by
    have hnone := h.disjoint i hbit
    rw [hvector i hi] at hnone
    obtain ⟨x, hx⟩ := Option.isSome_iff_exists.mp (Option.isNone_eq_false_iff.mp hnone)
    rw [hx, hconst i x hx]
  have hitems (n : ℕ) (hn : n ≤ 64) : List.replicate (onesBelow nd.leafvec n) ⟨0, 0⟩ =
      items nd.leafvec.getLsbD slots n := by
    induction n with
    | zero => rfl
    | succ n ih =>
      rw [onesBelow]
      cases hbit : nd.leafvec.getLsbD n with
      | false =>
        rw [items_succ_of_not_mark hbit]
        exact ih (Nat.le_of_succ_le hn)
      | true =>
        rw [items_succ_of_mark hbit (hmark hn hbit), ← ih (Nat.le_of_succ_le hn)]
        exact List.replicate_succ'
  refine ⟨⟨hitems 64 le_rfl, fun i hi x hx hbit => ?_, fun i hi hx => ?_⟩, hvector⟩
  · rw [hconst i x hx]
    obtain ⟨j, hj, hnone⟩ : ∃ j < i, nd.vector.getLsbD j = false := by
      by_contra hall
      push Not at hall
      have hleaf : nd.vector.getLsbD i = false := by
        rw [hvector i hi, hx]
        rfl
      have hmarked := h.first i hi hleaf fun j hj => Bool.eq_true_of_not_eq_false (hall j hj)
      have hbit' : nd.leafvec.getLsbD i = false := hbit
      rw [hmarked] at hbit'
      cases hbit'
    rw [hvector j (hj.trans hi)] at hnone
    exact lastItem_of_const hj (Option.isSome_iff_ne_none.mp (Option.isNone_eq_false_iff.mp hnone))
      fun k _ => hconst k
  · by_contra hbit
    have hsome := hmark hi (Bool.eq_true_of_not_eq_false hbit)
    rw [hx] at hsome
    cases hsome

/-- A memory with the links of a trie and shaped nodes is a trie but for the leaves. -/
theorem Looks.defaultLeaves (h : Looks t f) (hsame : t.Same Internal.links s)
    (hshaped : s.Shaped) : Looks s.defaultLeaves fun x => ((f x).1, ⟨0, 0⟩) := by
  obtain ⟨place, slots, hvalid, hfinds⟩ := h
  refine ⟨place, fun p i => (slots p i).map fun _ => ⟨0, 0⟩,
    hvalid.of_same (hsame.trans (same_defaultLeaves s).links) fun p q nd hp hnd => ?_,
    fun x hx => ⟨(hfinds x hx).1, fun i hi => ?_, ?_⟩⟩
  · rw [node_defaultLeaves] at hnd
    obtain ⟨nd', hnd', rfl⟩ := Option.map_eq_some_iff.mp hnd
    obtain ⟨nd₂, hnd₂, hshows⟩ := hvalid.shows p q hp
    have hvector := (hsame.linked hnd₂ hnd').1
    refine (hshaped.node hnd').shows (fun i hi => ?_) fun i x hx => ?_
    · rw [hvector, hshows.vector i hi, Option.isNone_map]
    · obtain ⟨-, -, rfl⟩ := Option.map_eq_some_iff.mp hx
      rfl
  · exact Option.map_eq_none_iff.mpr ((hfinds x hx).2.1 i hi)
  · exact congrArg _ (hfinds x hx).2.2

end Leaves

section Runs

/-- The states after a run of insertions when nothing is known of the leaves that they read:
between two insertions the leaves may become any others. -/
inductive StrayRun : List Insertion → Poptrie → Prop
  | init : StrayRun [] initRootPoptrie
  | leaves {ps : List Insertion} {s t : Poptrie} : StrayRun ps s → s.Same Internal.bits t →
    StrayRun ps t
  | put {ps : List Insertion} {s t : Poptrie} {p : Insertion} : StrayRun ps s →
    s.putPoptrie p.dest p.mask p.iface = some t → StrayRun (ps ++ [p]) t

variable {ps : List Insertion} {p : Insertion} {s t : Poptrie} {f : (ℕ → ℕ) → ℕ × Leaf}

/-- A run that stays inside the arrays is one of them. -/
theorem StrayRun.of_putAll (h : initRootPoptrie.putAll ps = some s) : StrayRun ps s := by
  induction ps using List.reverseRecOn generalizing s with
  | nil =>
    obtain rfl := Option.some.inj h
    exact .init
  | append_singleton ps p ih =>
    rw [Poptrie.putAll_append] at h
    obtain ⟨t, ht, h⟩ := Option.bind_eq_some_iff.mp h
    exact (ih ht).put h

theorem shaped_init : initRootPoptrie.Shaped := by
  intro b nodes hnodes nd hmem
  cases b with
  | zero =>
    obtain rfl := Option.some.inj hnodes
    rw [List.mem_singleton.mp hmem]
    exact shaped_new ⟨0, 0⟩
  | succ b => cases hnodes

/-- With default leaves every insertion stays inside the arrays. -/
theorem Looks.put_default (h : Looks s fun x => ((f x).1, ⟨0, 0⟩)) (hp : p.Proper) :
    ∃ t g, s.putPoptrie p.dest p.mask p.iface = some t ∧ Looks t g := by
  obtain ⟨t, ht, hlooks⟩ : ∃ t, s.putPoptrie p.dest p.mask p.iface = some t ∧
      Looks t (deepen (fun x => ((f x).1, ⟨0, 0⟩)) p.dest p.mask p.iface) :=
    h.putPoptrie hp.one_le hp.le_32 fun _ _ _ _ => UInt32.zero_le
  exact ⟨t, _, ht, hlooks⟩

/-- But for its leaves every state of such a run is a trie. -/
theorem StrayRun.looks (h : StrayRun ps s) (hps : ∀ p ∈ ps, p.Proper) :
    s.Shaped ∧ ∃ f : (ℕ → ℕ) → ℕ × Leaf, Looks s.defaultLeaves fun x => ((f x).1, ⟨0, 0⟩) := by
  induction h with
  | init =>
    exact ⟨shaped_init, _, looks_init.defaultLeaves (Poptrie.Same.refl _ _) shaped_init⟩
  | @leaves ps s t _ hsame ih =>
    obtain ⟨hshaped, f, hlooks⟩ := ih hps
    have hlinks := (same_defaultLeaves s).symm.links.trans hsame.links
    exact ⟨hshaped.of_same hsame, _, hlooks.defaultLeaves hlinks (hshaped.of_same hsame)⟩
  | @put ps s t p _ hput ih =>
    obtain ⟨hshaped, f, hlooks⟩ := ih fun q hq => hps q (List.mem_append_left _ hq)
    have hproper := hps p (List.mem_concat_self)
    obtain ⟨u, g, hu, hlooks'⟩ := hlooks.put_default hproper
    have hlinks := (same_defaultLeaves s).links.putPoptrie hput hu
    exact ⟨hshaped.putPoptrie hput, _,
      hlooks'.defaultLeaves hlinks.symm (hshaped.putPoptrie hput)⟩

/-- No such run gets stuck: for some leaves the next insertion goes through. -/
theorem StrayRun.exists_put (h : StrayRun ps s) (hps : ∀ p ∈ ps, p.Proper) (hp : p.Proper) :
    ∃ t u, s.Same Internal.bits t ∧ t.putPoptrie p.dest p.mask p.iface = some u := by
  obtain ⟨-, f, hlooks⟩ := h.looks hps
  obtain ⟨u, -, hu, -⟩ := hlooks.put_default hp
  exact ⟨s.defaultLeaves, u, same_defaultLeaves s, hu⟩

theorem exists_strayRun (hps : ∀ p ∈ ps, p.Proper) : ∃ s, StrayRun ps s := by
  induction ps using List.reverseRecOn with
  | nil => exact ⟨initRootPoptrie, .init⟩
  | append_singleton ps p ih =>
    have hold : ∀ q ∈ ps, q.Proper := fun q hq => hps q (List.mem_append_left _ hq)
    obtain ⟨s, hs⟩ := ih hold
    obtain ⟨t, u, hsame, hu⟩ :=
      hs.exists_put hold (hps p (List.mem_concat_self))
    exact ⟨u, (hs.leaves hsame).put hu⟩

end Runs

end NetworkLab.Tries
